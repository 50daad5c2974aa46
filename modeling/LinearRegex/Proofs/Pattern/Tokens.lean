import LinearRegex.Pattern.Lexeme
import LinearRegex.Proofs.CharSet.Canonical

/-!
# What tokens hold

A token that is read without a fault is in order: the bounds of quantifiers are, the ends of ranges
are, and named classes have code points for members.

Main statement: `Lexeme.next?_valid`.
-/

namespace LinearRegex

/-- An item that denotes code points: the ends of a range are in order, a class is proper. -/
def BracketItem.Valid : BracketItem → Prop
  | .char _ => True
  | .range first last => first ≤ last
  | .escape _ => True
  | .named members _ => ∀ iv ∈ members, iv.Proper

/-- Bounds that a pattern may have. -/
def Quantifier.Valid (q : Quantifier) : Prop := q.Ordered ∧ q.Bounded

/-- A token whose parts are valid. -/
def Token.Valid : Token → Prop
  | .bracket _ items => ∀ item ∈ items, item.Valid
  | .quantifier q => q.Valid
  | _ => True

/-! ## Brackets -/

namespace BracketItem

theorem range?_valid {a b : Atom} {item : BracketItem} (h : range? a b = some item) :
    item.Valid := by
  unfold range? at h
  split at h
  · split at h
    · next hle =>
      obtain rfl := Option.some.inj h
      exact hle
    · simp at h
  · simp at h

theorem item_valid (a : Atom) : a.item.Valid := by
  cases a <;> trivial

theorem scanNamed_valid {o : Nat} {s t : Source} {item : BracketItem}
    (h : scanNamed o s = .ok (item, t)) : item.Valid := by
  unfold scanNamed at h
  dsimp only at h
  split at h
  · next members _ hm =>
    obtain ⟨rfl, -⟩ := Prod.mk.inj (Except.ok.inj h)
    exact CharSet.proper_of_mem_named hm
  · simp at h

theorem scanAfterAtom_valid {o : Nat} {a : Atom} {s t : Source} {items : List BracketItem}
    (h : scanAfterAtom o a s = .ok (items, t)) : ∀ item ∈ items, item.Valid := by
  -- What is read is the atom, the atom and a dash, or a range.
  have hatom : ∀ item ∈ [a.item], item.Valid := by
    intro item hitem
    rw [List.mem_singleton.mp hitem]
    exact item_valid a
  have hdash : ∀ item ∈ [a.item, .char '-'], item.Valid := by
    intro item hitem
    rcases List.mem_cons.mp hitem with rfl | hitem
    · exact item_valid a
    · rw [List.mem_singleton.mp hitem]
      trivial
  unfold scanAfterAtom at h
  split at h
  · obtain ⟨rfl, -⟩ := Prod.mk.inj (Except.ok.inj h)
    exact hatom
  · split at h
    · obtain ⟨rfl, -⟩ := Prod.mk.inj (Except.ok.inj h)
      exact hdash
    · split at h
      · obtain ⟨rfl, -⟩ := Prod.mk.inj (Except.ok.inj h)
        exact hdash
      · split at h
        · simp at h
        · split at h
          · next item hrange =>
            obtain ⟨rfl, -⟩ := Prod.mk.inj (Except.ok.inj h)
            intro x hx
            rw [List.mem_singleton.mp hx]
            exact range?_valid hrange
          · simp at h

theorem scanItem_valid {o : Nat} {c : Char} {s t : Source} {items : List BracketItem}
    (h : scanItem o c s = .ok (items, t)) : ∀ item ∈ items, item.Valid := by
  unfold scanItem at h
  split at h
  · split at h
    · simp at h
    · next item u hu =>
      obtain ⟨rfl, -⟩ := Prod.mk.inj (Except.ok.inj h)
      intro x hx
      rw [List.mem_singleton.mp hx]
      exact scanNamed_valid hu
  · split at h
    · simp at h
    · exact scanAfterAtom_valid h

theorem scanItems_valid {o : Nat} {read items : List BracketItem} {s t : Source}
    (hread : ∀ item ∈ read, item.Valid) (h : scanItems o read s = .ok (items, t)) :
    ∀ item ∈ items, item.Valid := by
  fun_induction scanItems o read s with
  | case1 => simp at h
  | case2 read s u hs =>
    obtain ⟨rfl, -⟩ := Prod.mk.inj (Except.ok.inj h)
    intro item hitem
    exact hread item (List.mem_reverse.mp hitem)
  | case3 => simp at h
  | case4 read s c u hs hc more v hv ih =>
    refine ih (fun item hitem => ?_) h
    rw [List.reverseAux_eq, List.mem_append, List.mem_reverse] at hitem
    exact hitem.elim (scanItem_valid hv item) (hread item)

theorem scan_valid {o : Nat} {s t : Source} {tok : Token} (h : scan o s = .ok (tok, t)) :
    tok.Valid := by
  unfold scan at h
  dsimp only at h
  split at h
  · simp at h
  · next items u hu =>
    obtain ⟨rfl, -⟩ := Prod.mk.inj (Except.ok.inj h)
    refine scanItems_valid (fun item hitem => ?_) hu
    split at hitem
    · rw [List.mem_singleton.mp hitem]
      trivial
    · simp at hitem

end BracketItem

/-! ## Quantifiers -/

namespace Quantifier

theorem scanCounts_valid {o : Nat} {s t : Source} {q : Quantifier}
    (h : scanCounts o s = .ok (q, t)) : q.Valid := by
  unfold scanCounts at h
  split at h
  · simp at h
  · split at h
    · simp at h
    · next hordered =>
      split at h
      · simp at h
      · next hbounded =>
        obtain ⟨rfl, -⟩ := Prod.mk.inj (Except.ok.inj h)
        exact ⟨Decidable.not_not.mp hordered, Decidable.not_not.mp hbounded⟩

theorem scanGreed_valid {q : Quantifier} (h : q.Valid) (s : Source) : (q.scanGreed s).1.Valid := h

end Quantifier

namespace Token

theorem quantifier?_valid {c : Char} {q : Quantifier} (h : quantifier? c = some q) : q.Valid := by
  unfold quantifier? at h
  split at h
  · obtain rfl := Option.some.inj h
    unfold Quantifier.Valid
    decide
  · obtain rfl := Option.some.inj h
    unfold Quantifier.Valid
    decide
  · obtain rfl := Option.some.inj h
    unfold Quantifier.Valid
    decide
  · simp at h

theorem single?_valid {c : Char} {token : Token} (h : single? c = some token) : token.Valid := by
  unfold single? at h
  split at h
  all_goals first
    | obtain rfl := Option.some.inj h
      trivial
    | simp at h

theorem scanEscape_valid {o : Nat} {s t : Source} {token : Token}
    (h : scanEscape o s = .ok (token, t)) : token.Valid := by
  unfold scanEscape at h
  repeat' split at h
  all_goals first
    | obtain ⟨rfl, -⟩ := Prod.mk.inj (Except.ok.inj h)
      trivial
    | simp at h

theorem scan_valid {o : Nat} {c : Char} {s t : Source} {token : Token}
    (h : scan o c s = .ok (token, t)) : token.Valid := by
  unfold scan at h
  split at h
  · next hsingle =>
    obtain ⟨rfl, -⟩ := Prod.mk.inj (Except.ok.inj h)
    exact single?_valid hsingle
  · next q _ hq =>
    have := Quantifier.scanGreed_valid (quantifier?_valid hq) s
    rwa [Except.ok.inj h] at this
  · split at h
    · split at h
      · simp at h
      · next q u hu =>
        have := Quantifier.scanGreed_valid (Quantifier.scanCounts_valid hu) u
        rwa [Except.ok.inj h] at this
    · split at h
      · split at h
        · obtain ⟨rfl, -⟩ := Prod.mk.inj (Except.ok.inj h)
          trivial
        · obtain ⟨rfl, -⟩ := Prod.mk.inj (Except.ok.inj h)
          trivial
      · split at h
        · exact BracketItem.scan_valid h
        · split at h
          · simp at h
          · split at h
            · exact scanEscape_valid h
            · obtain ⟨rfl, -⟩ := Prod.mk.inj (Except.ok.inj h)
              trivial

end Token

/-- **A token that is read is valid.** -/
theorem Lexeme.next?_valid {s t : Source} {lx : Lexeme} {token : Token}
    (h : Lexeme.next? s = some (lx, t)) (htoken : lx.token = .ok token) : token.Valid := by
  unfold Lexeme.next? at h
  split at h
  · simp at h
  · split at h
    · obtain ⟨rfl, -⟩ := Prod.mk.inj (Option.some.inj h)
      simp at htoken
    · next tok u hu =>
      obtain ⟨rfl, -⟩ := Prod.mk.inj (Option.some.inj h)
      obtain rfl := Except.ok.inj htoken
      exact Token.scan_valid hu

end LinearRegex
