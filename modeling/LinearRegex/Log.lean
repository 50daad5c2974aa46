import LinearRegex.Replace.Replacer

/-!
# Records

What is reported while patterns are built and texts are searched. Building reports the tree, the
program and a summary; a search that records slots reports its match, and one that meets its
deadline says where. The records of an operation are computed from the same input as its result.
-/

namespace LinearRegex

/-- How important a record is. -/
inductive LogLevel where
  | trace
  | debug
deriving DecidableEq, Inhabited

/-- The name of a level. -/
def LogLevel.text : LogLevel → String
  | .trace => "trace"
  | .debug => "debug"

/-- A report. -/
structure LogRecord where
  level : LogLevel
  message : String
deriving DecidableEq, Inhabited

namespace LogRecord

/-- A pattern between slashes, followed by its flags. -/
def patternText (pattern : String) (flags : Flags) : String :=
  "/" ++ pattern ++ "/" ++ flags.toString

/-- The records of building a pattern, as far as it gets. -/
def ofBuild (pattern : String) (options : Options := {}) : List LogRecord :=
  let shown := patternText pattern options.flags
  match Pattern.parse pattern options.flags with
  | .error _ => []
  | .ok tree =>
    ⟨.trace, "IR for " ++ shown ++ ":\n" ++ tree.node.text⟩ ::
      match Program.compile options.sizeLimit tree with
      | .error _ => []
      | .ok p =>
        [⟨.trace, "Program for " ++ shown ++ ":\n" ++ p.text⟩,
          ⟨.debug, "compiled " ++ shown ++ ": " ++ toString p.instrs.size ++ " instructions, " ++
            toString p.groupCount ++ " groups, start predicate " ++ p.prefilter.text⟩]

/-- The record of a search that found a match. -/
def ofSpan (s : Span) : LogRecord :=
  ⟨.trace, "match Some(" ++ toString s.start ++ ")..Some(" ++ toString s.stop ++ ")"⟩

/-- The records of a search for a match. -/
def ofFind (found : Option Match) : List LogRecord := (found.map (ofSpan ·.toSpan)).toList

/-- The records of a search for the groups of a match. -/
def ofCaptures (found : Option Captures) : List LogRecord :=
  ((found.bind (·.span? 0)).map ofSpan).toList

/-- The records of a search that might have met its deadline. -/
def ofSearch (re : Regex) (outcome : Except Timeout (Option Captures)) : List LogRecord :=
  match outcome with
  | .ok found => ofCaptures found
  | .error e =>
    [⟨.trace, "search timed out at offset " ++ toString e.offset⟩,
      ⟨.debug, "search for /" ++ re.pattern ++ "/ failed: " ++ e.message⟩]

/-- The records of going through matches: one for each search that found a match. -/
def ofMatches (m : Matches) : List LogRecord := m.seen.reverse.map ofSpan

/-- The records of searching for all matches. -/
def ofFindAll (re : Regex) (hay : Haystack) : List LogRecord :=
  ofMatches (re.takeMatches hay none).2

/-- The records of searching for the groups of all matches. -/
def ofCapturesAll (re : Regex) (hay : Haystack) : List LogRecord :=
  ofMatches (re.takeCaptures hay none).2

/-- The records of splitting a text into at most `limit` segments, or into all. The last segment
that the limit allows takes no search. -/
def ofSplit (re : Regex) (hay : Haystack) (limit : Option Nat) : List LogRecord :=
  ofMatches (re.takeMatches hay (limit.map (· - 1))).2

/-- The records of replacing at most `limit` matches, or all if the limit is 0. -/
def ofReplace (re : Regex) (hay : Haystack) (limit : Nat) (rep : Replacer) : List LogRecord :=
  match rep.fixed? with
  | some _ => ofMatches (re.takeMatches hay (Regex.limit? limit)).2
  | none => ofMatches (re.takeCaptures hay (Regex.limit? limit)).2

end LogRecord

end LinearRegex
