import LinearRegex.Proofs.Pattern.Trails

/-!
# Where groups lie

The two slots of a group are recorded one at a time, and a group within a loop is recorded again in
each iteration. Still, behind a piece the slots of a group are what they were before it, or both
tell a stretch that lies within the piece: a group that is begun is always ended before another
piece follows.

Main statements: `Trail.closed_encloses`, and `Pattern.exists_groups_of_firstTrail` for a whole
pattern.
-/

namespace LinearRegex

/-- The two slots of a group tell the stretch between two places. -/
structure Slots.Records (slots : Slots) (g : Nat) (i j : Cursor) : Prop where
  start : slots[2 * g]? = some (some i.offset)
  stop : slots[2 * g + 1]? = some (some j.offset)

/-- Each group lies between two places and in order, or has no slot recorded. -/
def Slots.GroupsWithin (slots : Slots) (i j : Cursor) : Prop :=
  ∀ g, 2 * g + 1 < slots.size →
    (slots[2 * g]? = some none ∧ slots[2 * g + 1]? = some none) ∨
      ∃ a ∈ i.onward, ∃ b ∈ a.onward, j ∈ b.onward ∧ slots.Records g a b

namespace Trail

variable {t u v : Trail} {accepts : Char → Bool} {slot index g : Nat}

/-! ## Slots of a trail -/

@[simp] theorem slots_mark (t : Trail) (choice : Nat) : (t.mark choice).slots = t.slots := rfl

@[simp] theorem size_record (t : Trail) (slot : Nat) :
    (t.record slot).slots.size = t.slots.size :=
  Array.size_setIfInBounds

theorem getElem?_record_self (h : slot < t.slots.size) :
    (t.record slot).slots[slot]? = some (some t.cur.offset) :=
  Array.getElem?_setIfInBounds_self_of_lt h

theorem getElem?_record_ne {i : Nat} (h : slot ≠ i) : (t.record slot).slots[i]? = t.slots[i]? :=
  Array.getElem?_setIfInBounds_ne h

theorem slots_of_mem_take (h : v ∈ t.take accepts) : v.slots = t.slots := by
  obtain ⟨w, hw, rfl⟩ := List.mem_map.mp h
  unfold Way.take at hw
  split at hw
  · rw [List.mem_singleton.mp hw]
  · simp at hw

/-! ## Between two places of a trail -/

/-- From one place of a trail to another, a group is left as it was, or is matched between them. -/
structure Encloses (t v : Trail) : Prop where
  mem_onward : v.cur ∈ t.cur.onward
  size : v.slots.size = t.slots.size
  group : ∀ g, 2 * g + 1 < t.slots.size →
    (v.slots[2 * g]? = t.slots[2 * g]? ∧ v.slots[2 * g + 1]? = t.slots[2 * g + 1]?) ∨
      ∃ a ∈ t.cur.onward, ∃ b ∈ a.onward, v.cur ∈ b.onward ∧ v.slots.Records g a b

namespace Encloses

/-- Where no slot is recorded, all groups are left as they were. -/
theorem of_slots_eq (hcur : v.cur ∈ t.cur.onward) (hslots : v.slots = t.slots) :
    t.Encloses v where
  mem_onward := hcur
  size := by rw [hslots]
  group _ _ := Or.inl ⟨by rw [hslots], by rw [hslots]⟩

theorem trans (h : t.Encloses u) (h' : u.Encloses v) : t.Encloses v where
  mem_onward := Cursor.mem_onward_trans h.mem_onward h'.mem_onward
  size := h'.size.trans h.size
  group := by
    intro g hg
    rcases h'.group g (h.size ▸ hg) with ⟨hstart', hstop'⟩ | ⟨a, ha, b, hb, hv, hrecords⟩
    · rcases h.group g hg with ⟨hstart, hstop⟩ | ⟨a, ha, b, hb, hu, hrecords⟩
      · exact Or.inl ⟨hstart'.trans hstart, hstop'.trans hstop⟩
      · exact Or.inr ⟨a, ha, b, hb, Cursor.mem_onward_trans hu h'.mem_onward,
          hstart'.trans hrecords.start, hstop'.trans hrecords.stop⟩
    · exact Or.inr ⟨a, Cursor.mem_onward_trans h.mem_onward ha, b, hb, hv, hrecords⟩

/-- A group that is ended where its body ends lies between the ends of the body. If it has been
recorded within the body, then from where that began. -/
theorem group_self (h : (t.record (2 * g)).Encloses v) (hg : 2 * g + 1 < t.slots.size) :
    ∃ a ∈ t.cur.onward, v.cur ∈ a.onward ∧ (v.record (2 * g + 1)).slots.Records g a v.cur := by
  have hsize : (t.record (2 * g)).slots.size = t.slots.size := t.size_record (2 * g)
  have hstop : (v.record (2 * g + 1)).slots[2 * g + 1]? = some (some v.cur.offset) :=
    getElem?_record_self (by rw [h.size, hsize]; exact hg)
  have hsame : (v.record (2 * g + 1)).slots[2 * g]? = v.slots[2 * g]? :=
    getElem?_record_ne (by omega)
  rcases h.group g (hsize ▸ hg) with ⟨hstart, -⟩ | ⟨a, ha, b, hb, hv, hrecords⟩
  · have hfirst : (t.record (2 * g)).slots[2 * g]? = some (some t.cur.offset) :=
      getElem?_record_self (by omega)
    exact ⟨t.cur, t.cur.mem_onward_self, h.mem_onward, hsame.trans (hstart.trans hfirst), hstop⟩
  · exact ⟨a, ha, Cursor.mem_onward_trans hb hv, hsame.trans hrecords.start, hstop⟩

/-- The other groups are not touched by the ends of a group. -/
theorem group_of_ne (h : (t.record (2 * index)).Encloses v) (hne : g ≠ index)
    (hg : 2 * g + 1 < t.slots.size) :
    ((v.record (2 * index + 1)).slots[2 * g]? = t.slots[2 * g]? ∧
        (v.record (2 * index + 1)).slots[2 * g + 1]? = t.slots[2 * g + 1]?) ∨
      ∃ a ∈ t.cur.onward, ∃ b ∈ a.onward, v.cur ∈ b.onward ∧
        (v.record (2 * index + 1)).slots.Records g a b := by
  have hfirst : (v.record (2 * index + 1)).slots[2 * g]? = v.slots[2 * g]? :=
    getElem?_record_ne (by omega)
  have hlast : (v.record (2 * index + 1)).slots[2 * g + 1]? = v.slots[2 * g + 1]? :=
    getElem?_record_ne (by omega)
  rcases h.group g (by rwa [size_record]) with ⟨hstart, hstop⟩ | ⟨a, ha, b, hb, hv, hrecords⟩
  · rw [getElem?_record_ne (by omega)] at hstart hstop
    exact Or.inl ⟨hfirst.trans hstart, hlast.trans hstop⟩
  · exact Or.inr ⟨a, ha, b, hb, hv, hfirst.trans hrecords.start, hlast.trans hrecords.stop⟩

end Encloses

/-- **Every step leaves a group as it was, or encloses it.** -/
theorem closed_encloses : Closed Encloses where
  refl t := .of_slots_eq t.cur.mem_onward_self rfl
  trans := Encloses.trans
  take h := .of_slots_eq (takes_of_mem_take h).mem_onward (slots_of_mem_take h)
  mark t choice := .of_slots_eq t.cur.mem_onward_self (t.slots_mark choice)
  group := by
    intro index t v h
    refine ⟨h.mem_onward, ?_, ?_⟩
    · rw [size_record, h.size, size_record]
    · intro g hg
      by_cases hne : g = index
      · subst hne
        obtain ⟨a, ha, hv, hrecords⟩ := h.group_self hg
        exact Or.inr ⟨a, ha, v.cur, hv, v.cur.mem_onward_self, hrecords⟩
      · exact h.group_of_ne hne hg

end Trail

/-- **The groups of the first trail** lie between its ends, which it records for the whole match if
there are slots for that. -/
theorem Pattern.exists_groups_of_firstTrail {pattern : Pattern} {width : Nat} {cur : Cursor}
    {slots : Slots} (h : pattern.firstTrail width cur = some slots) :
    ∃ last ∈ cur.onward, slots.size = width ∧ slots.GroupsWithin cur last ∧
      (2 ≤ width → slots[1]? = some (some last.offset)) := by
  unfold firstTrail at h
  obtain ⟨v, hv, rfl⟩ := Option.map_eq_some_iff.mp h
  have hmem := List.mem_of_head? hv
  have hsize : (Array.replicate width (none : Slot)).size = width := Array.size_replicate
  have hencl := Node.related_of_mem_trails Trail.closed_encloses hmem
  refine ⟨v.cur, hencl.mem_onward, hencl.size.trans hsize, ?_, ?_⟩
  · intro g hg
    have hstop : 2 * g + 1 < width := (hencl.size.trans hsize) ▸ hg
    have hstart : 2 * g < width := by omega
    rcases hencl.group g (hencl.size ▸ hg) with ⟨hfirst, hlast⟩ | hrecords
    · rw [hfirst, hlast]
      exact Or.inl (by simp [hstart, hstop])
    · exact Or.inr hrecords
  · intro hwidth
    rw [Node.trails] at hmem
    obtain ⟨u, hu, rfl⟩ := List.mem_map.mp hmem
    have hinner := Node.related_of_mem_trails Trail.closed_encloses hu
    have hlast : u.slots.size = width := hinner.size.trans ((Trail.size_record _ _).trans hsize)
    exact Trail.getElem?_record_self (by omega)

end LinearRegex
