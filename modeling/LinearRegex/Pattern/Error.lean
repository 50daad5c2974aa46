/-!
# Errors in patterns

What can be wrong with a pattern, and where.
-/

namespace LinearRegex

/-- What is wrong with a pattern. -/
inductive PatternFault where
  | unbalancedParenthesis
  | unbalancedBracket
  | emptyBranch
  | nothingToRepeat
  | nestingTooDeep
  | tooManyGroups
  | invalidGroupName
  | duplicateGroupName
  | invalidGroupModifier
  | invalidNamedClass
  | invalidRange
  | invalidQuantifier
  | repetitionTooLarge
  | invalidEscape
  | incompleteEscape
deriving DecidableEq, Inhabited

/-- The fault in words. -/
def PatternFault.message : PatternFault → String
  | .unbalancedParenthesis => "Unbalanced parenthesis"
  | .unbalancedBracket => "Unbalanced bracket"
  | .emptyBranch => "Empty alternation branch"
  | .nothingToRepeat => "Nothing to repeat"
  | .nestingTooDeep => "Nesting too deep"
  | .tooManyGroups => "Capture group count limit exceeded"
  | .invalidGroupName => "Invalid capture group name"
  | .duplicateGroupName => "Duplicate capture group name"
  | .invalidGroupModifier => "Invalid group modifier"
  | .invalidNamedClass => "Invalid POSIX class"
  | .invalidRange => "Invalid character range"
  | .invalidQuantifier => "Invalid quantifier"
  | .repetitionTooLarge => "Repetition bound too large"
  | .invalidEscape => "Invalid escape"
  | .incompleteEscape => "Incomplete escape"

/-- A fault and the byte offset in the pattern that it is blamed on. -/
structure PatternError where
  fault : PatternFault
  offset : Nat
deriving DecidableEq, Inhabited

end LinearRegex
