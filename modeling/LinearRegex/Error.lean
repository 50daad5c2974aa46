import LinearRegex.Pattern.Error
import LinearRegex.Program.Compile
import LinearRegex.Replace.Template

/-!
# Errors

Why a pattern or a template is refused.
-/

namespace LinearRegex

/-- Why a pattern or a template is refused. -/
inductive Error where
  /-- The pattern is malformed. -/
  | pattern (e : PatternError)
  /-- The pattern is well formed, but cannot be compiled. -/
  | compile (e : CompileError)
  /-- The template does not fit the pattern. -/
  | template (e : TemplateError)
deriving DecidableEq, Inhabited

namespace Error

/-- The error in words. -/
def message : Error → String
  | .pattern e => e.fault.message
  | .compile e => e.message
  | .template e => e.message

/-- The byte offset in the pattern or template that is blamed, if any is. -/
def offset? : Error → Option Nat
  | .pattern e => some e.offset
  | .compile _ => none
  | .template e => some e.offset

/-- The error in words, with the place. -/
def text (e : Error) : String :=
  match e.offset? with
  | some offset => e.message ++ " at offset " ++ toString offset
  | none => e.message

end Error

end LinearRegex
