/-!
# Scanning bytes

The least place in a range that passes a test, and the test whether some bytes stand at a place.
Searches for a few given bytes may be left to other code, which is faster than a scan place by
place; what uses them has them as an argument.
-/

namespace LinearRegex.ByteScan

/-- The least number from `i` to `last` that passes a test. -/
@[specialize] def leastFrom (p : Nat → Bool) (i last : Nat) : Option Nat :=
  if i ≤ last then if p i then some i else leastFrom p (i + 1) last else none
termination_by last + 1 - i

/-- Whether the bytes of a list stand one after the other from place `i` on. -/
def occursAt (bytes : ByteArray) (i : Nat) : List UInt8 → Bool
  | [] => true
  | b :: bs => bytes[i]? == some b && occursAt bytes (i + 1) bs

/-- Searches for one of a few bytes, and for bytes that stand one after the other. Each is given the
bytes to look through and where to begin, and answers with the first place from there on. -/
structure Searchers where
  one : UInt8 → ByteArray → Nat → Option Nat
  two : UInt8 → UInt8 → ByteArray → Nat → Option Nat
  three : UInt8 → UInt8 → UInt8 → ByteArray → Nat → Option Nat
  sequence : List UInt8 → ByteArray → Nat → Option Nat

/-- The searches that look at one place after the other. -/
def Searchers.scanning : Searchers where
  one a bytes start := leastFrom (fun i => bytes[i]?.any [a].contains) start bytes.size
  two a b bytes start := leastFrom (fun i => bytes[i]?.any [a, b].contains) start bytes.size
  three a b c bytes start :=
    leastFrom (fun i => bytes[i]?.any [a, b, c].contains) start bytes.size
  sequence needle bytes start := leastFrom (occursAt bytes · needle) start bytes.size

end LinearRegex.ByteScan
