import LinearRegex.Unicode.CaseMap

/-!
# Case folding

A character folds to the lower case of its upper case, so that characters with one upper case fold
together (`µ` and `μ`, `ς` and `σ`). Two characters match without regard to case when their folds
agree; the characters that share a fold form its orbit, which may have more than two members
(`K`, `k` and the Kelvin sign).

An orbit is found in a table of the characters that are not their own fold, sorted by fold. The
table is built for any fold function, so that what it holds can be said of all of them.
-/

namespace LinearRegex.CaseFold

/-- The fold of a character: one that takes several characters in the other case stays itself. -/
def fold (c : Char) : Char :=
  if c.toNat < 0x80 then c.toLower else Unicode.lower (Unicode.upper c)

/-- All characters above this code point are their own fold. -/
def lastCased : Nat := 0x1FFFF

/-- The characters up to the last one that has case. -/
def casedRange : List Char :=
  (List.range (lastCased + 1)).filterMap fun n =>
    if n.isValidChar then some (Char.ofNat n) else none

/-- Each character that is not its own fold, after its fold; sorted by fold, then by character. -/
def unfoldings (fold : Char → Char) : Array (Char × Char) :=
  let moved := casedRange.filterMap fun c => if fold c = c then none else some (fold c, c)
  (moved.mergeSort fun a b => a.1 ≤ b.1).toArray

/-- The members of a character's orbit under a fold function with its table of unfoldings. -/
def orbitIn (fold : Char → Char) (table : Array (Char × Char)) (c : Char) : List Char :=
  let f := fold c
  let moved := (Sorted.equalElements (fun entry => compare entry.1 f) table).map (·.2)
  if fold f = f then f :: moved else moved

/-- The table of unfoldings of the Unicode case fold. -/
def unfoldTable : Array (Char × Char) := unfoldings fold

/-- The characters whose fold is that of `c`, among them `c`. -/
def orbit (c : Char) : List Char := orbitIn fold unfoldTable c

/-- Whether some other character has the same fold. -/
def hasVariants (c : Char) : Bool := (orbit c).any (· != c)

end LinearRegex.CaseFold
