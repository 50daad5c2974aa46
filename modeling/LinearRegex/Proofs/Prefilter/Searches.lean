import LinearRegex.Proofs.Prefilter.ByteSet
import Mathlib.Data.Finset.Card

/-!
# Searches for bytes

A set of bytes is built from the empty one by adding bytes and by joining sets. Whatever the order,
its members are the bytes that went into it: these are listed in order and counted once each, and a
search finds the first place where one of them stands. A search for a literal finds the first place
where it stands. Both hold for any searches for a few bytes that may be relied on.

Main statement: `ByteSet.built_exact`.
-/

namespace LinearRegex.ByteSet

open ByteScan

variable {s : ByteSet} {searchers : Searchers}

/-! ## Members in order -/

theorem pairwise_allBytes : allBytes.Pairwise (· < ·) := by decide +kernel

/-- **The members are listed in ascending order.** -/
theorem pairwise_toList (s : ByteSet) : s.toList.Pairwise (· < ·) :=
  pairwise_allBytes.sublist List.filter_sublist

theorem nodup_toList (s : ByteSet) : s.toList.Nodup :=
  s.pairwise_toList.imp fun h => UInt8.ne_of_lt h

/-- **Each member counts once.** -/
theorem size_eq_card {bytes : List UInt8} (h : ∀ b, s.contains b = true ↔ b ∈ bytes) :
    s.size = bytes.toFinset.card := by
  have hmembers : s.toList.toFinset = bytes.toFinset := by
    ext b
    rw [List.mem_toFinset, List.mem_toFinset, mem_toList, h]
  rw [← length_toList, ← hmembers, List.toFinset_card_of_nodup s.nodup_toList]

/-! ## Sets that are built step by step -/

/-- How a set of bytes is built from the empty one. -/
inductive Build where
  | empty
  | insert (t : Build) (b : UInt8)
  | union (t u : Build)

namespace Build

/-- The set that is built. -/
def set : Build → ByteSet
  | empty => .empty
  | insert t b => t.set.insert b
  | union t u => t.set.union u.set

/-- The bytes that go into it, some of them maybe more than once. -/
def bytes : Build → List UInt8
  | empty => []
  | insert t b => b :: t.bytes
  | union t u => t.bytes ++ u.bytes

/-- **The members are the bytes that went into the set.** -/
theorem contains_set (t : Build) (b : UInt8) : t.set.contains b = true ↔ b ∈ t.bytes := by
  induction t with
  | empty => simp [set, bytes]
  | insert t c ih => rw [set, contains_insert, ih, bytes, List.mem_cons, or_comm, eq_comm]
  | union t u iht ihu => rw [set, contains_union, iht, ihu, bytes, List.mem_append]

theorem mem_toList_set (t : Build) (b : UInt8) : b ∈ t.set.toList ↔ b ∈ t.bytes :=
  mem_toList.trans (t.contains_set b)

end Build

/-- **Sets of bytes and the searches for them are exact.** However a set is built, a byte is a
member if it went into the set; the members are counted once each and listed in ascending order; and
a search through any bytes, from any place on, finds the first place where a member stands, whether
there is one member, two, three or another number of them. A search for a literal finds the first
place where the literal stands, be it empty, one byte or longer. Of the searches for a few bytes no
more is relied on than that each finds the first place. -/
theorem built_exact (h : searchers.Lawful) (t : Build) :
    (∀ b, t.set.contains b = true ↔ b ∈ t.bytes) ∧
    t.set.size = t.bytes.toFinset.card ∧
    t.set.toList.Pairwise (· < ·) ∧
    (∀ b, b ∈ t.set.toList ↔ b ∈ t.bytes) ∧
    (∀ (hay : ByteArray) (start : Nat), start ≤ hay.size →
      IsFirst (HasOneOf t.bytes hay) start (t.set.findBy searchers hay start)) ∧
    ∀ (l : Literal) (hay : ByteArray) (start : Nat), start ≤ hay.size →
      IsFirst (Occurs l.bytes hay) start (l.findBy searchers hay start) := by
  refine ⟨t.contains_set, size_eq_card t.contains_set, pairwise_toList _, t.mem_toList_set,
    fun hay start hstart => ?_, fun l hay start hstart => l.isFirst_findBy h hstart⟩
  refine (t.set.isFirst_findBy h hstart).congr fun i => ?_
  exact exists_congr fun b => and_congr_left fun _ => t.mem_toList_set b

/-- Three members, one of which went into the set twice, in words of their own and at both ends of a
word. They are looked for in the middle of a text, and so is a literal that overlaps with itself. -/
theorem built_exact_three : ∃ (t : Build) (hay : ByteArray),
    t = .union (.insert (.insert .empty 0x2F) 0x30) (.insert (.insert .empty 0xFF) 0x2F) ∧
    hay = ⟨#[0x30, 0x61, 0x61, 0x62, 0x61, 0x61, 0x62, 0x2F]⟩ ∧ Searchers.scanning.Lawful ∧
    2 ≤ hay.size ∧ t.set.size = 3 ∧ t.bytes.toFinset.card = 3 ∧
    t.set.toList = [0x2F, 0x30, 0xFF] ∧
    t.set.findBy .scanning hay 2 = some 7 ∧ IsFirst (HasOneOf t.bytes hay) 2 (some 7) ∧
    Literal.findBy .scanning ⟨[0x61, 0x62]⟩ hay 4 = some 5 ∧
    IsFirst (Occurs [0x61, 0x62] hay) 4 (some 5) := by
  let t : Build := .union (.insert (.insert .empty 0x2F) 0x30) (.insert (.insert .empty 0xFF) 0x2F)
  let hay : ByteArray := ⟨#[0x30, 0x61, 0x61, 0x62, 0x61, 0x61, 0x62, 0x2F]⟩
  have hsize : t.set.size = 3 := by decide +kernel
  have hset : t.set.findBy .scanning hay 2 = some 7 := by decide +kernel
  have hliteral : Literal.findBy .scanning ⟨[0x61, 0x62]⟩ hay 4 = some 5 := by decide +kernel
  obtain ⟨-, hcard, -, -, hfound, hoccurs⟩ := built_exact Searchers.lawful_scanning t
  exact ⟨t, hay, rfl, rfl, Searchers.lawful_scanning, by decide, hsize, hcard.symm.trans hsize,
    by decide +kernel, hset, hset ▸ hfound hay 2 (by decide), hliteral,
    hliteral ▸ hoccurs ⟨[0x61, 0x62]⟩ hay 4 (by decide)⟩

end LinearRegex.ByteSet
