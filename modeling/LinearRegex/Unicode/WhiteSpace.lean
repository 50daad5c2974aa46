import LinearRegex.CharSet.Basic

/-!
# White space

The Unicode 17 table of the property White_Space.
-/

namespace LinearRegex.Unicode

/-- The characters with the property White_Space. -/
def whiteSpace : CharSet := .ofPairs
  [(0x09, 0x0D), (0x20, 0x20), (0x85, 0x85), (0xA0, 0xA0), (0x1680, 0x1680), (0x2000, 0x200A),
  (0x2028, 0x2029), (0x202F, 0x202F), (0x205F, 0x205F), (0x3000, 0x3000)]

end LinearRegex.Unicode
