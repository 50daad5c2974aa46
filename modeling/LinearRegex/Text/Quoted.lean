import LinearRegex.Unicode.Graphic

/-!
# Quoted text

How characters and texts are shown between quotes: control characters, quotes and the backslash
by an escape, other characters that do not show by themselves by their code point in hexadecimal.
-/

namespace LinearRegex.Quoted

/-- The code point of a character as `\u` with lower-case hexadecimal digits in braces. -/
def codeEscape (c : Char) : List Char :=
  ['\\', 'u', '\x7b'] ++ Nat.toDigits 16 c.toNat ++ ['\x7d']

/-- The shown form of one character; quotes in `quotes` get a backslash. -/
def escapeChar (quotes : List Char) (c : Char) : List Char :=
  if c = Char.ofNat 0 then ['\\', '0']
  else if c = '\t' then ['\\', 't']
  else if c = '\r' then ['\\', 'r']
  else if c = '\n' then ['\\', 'n']
  else if c = '\\' || quotes.contains c then ['\\', c]
  else if Unicode.graphic.contains c.toNat then [c]
  else codeEscape c

/-- A character between single quotes; both kinds of quote are escaped. -/
def char (c : Char) : String :=
  String.ofList ('\'' :: escapeChar ['\'', '\x22'] c ++ ['\''])

/-- A text between double quotes; only double quotes are escaped. -/
def text (cs : List Char) : String :=
  String.ofList ('\x22' :: cs.flatMap (escapeChar ['\x22']) ++ ['\x22'])

/-- A string between double quotes. -/
def string (s : String) : String := text s.toList

end LinearRegex.Quoted
