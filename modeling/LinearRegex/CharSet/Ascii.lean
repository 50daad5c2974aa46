import LinearRegex.CharSet.Basic

/-!
# ASCII classes

The ASCII members of `\d`, `\s` and `\w`, and the classes that can be named in a bracket as
`[:alpha:]`. Each table is sorted and no two of its intervals abut.
-/

namespace LinearRegex.CharSet.Ascii

/-- The decimal digits. -/
def digits : List Interval := [.between '0' '9']

/-- Tab to carriage return, and the space. -/
def spaces : List Interval := [.between '\t' '\r', .between ' ' ' ']

/-- Letters, digits and the underscore. -/
def words : List Interval :=
  [.between '0' '9', .between 'A' 'Z', .between '_' '_', .between 'a' 'z']

/-- The intervals of a named class. -/
def named? (name : String) : Option (List Interval) :=
  match name with
  | "alnum" => some [.between '0' '9', .between 'A' 'Z', .between 'a' 'z']
  | "alpha" => some [.between 'A' 'Z', .between 'a' 'z']
  | "ascii" => some [⟨0, 0x7F⟩]
  | "blank" => some [.between '\t' '\t', .between ' ' ' ']
  | "cntrl" => some [⟨0, 0x1F⟩, ⟨0x7F, 0x7F⟩]
  | "digit" => some digits
  | "graph" => some [.between '!' '~']
  | "lower" => some [.between 'a' 'z']
  | "print" => some [.between ' ' '~']
  | "punct" => some [.between '!' '/', .between ':' '@', .between '[' '\x60', .between '\x7b' '~']
  | "space" => some spaces
  | "upper" => some [.between 'A' 'Z']
  | "word" => some words
  | "xdigit" => some [.between '0' '9', .between 'A' 'F', .between 'a' 'f']
  | _ => none

end LinearRegex.CharSet.Ascii
