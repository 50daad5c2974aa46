import LinearRegex.Proofs.Pattern.Tokens

/-!
# Lexemes in front of a closing parenthesis

Where a pattern is put between parentheses it is cut into the same lexemes as on its own: no lexeme
that is complete reaches beyond the end of the pattern, or looks at the parenthesis there.

Main statements: `Lexeme.next?_enclosed` for one lexeme and `Lexeme.all_enclosed` for all of them.
-/

namespace LinearRegex

/-! ## The source -/

namespace Source

/-- The source so many bytes further on, in front of a closing parenthesis and more. -/
def enclosed (s : Source) (d : Nat) (more : List Char) : Source :=
  ⟨s.offset + d, s.rest ++ ')' :: more⟩

variable {s t : Source} {c : Char} {cs more : List Char} {d : Nat}

theorem behind_enclosed (s : Source) (d : Nat) (more : List Char) (c : Char) (cs : List Char) :
    (s.enclosed d more).behind c (cs ++ ')' :: more) = (s.behind c cs).enclosed d more := by
  unfold enclosed behind
  rw [Nat.add_right_comm]

theorem next?_enclosed (h : s.next? = some (c, t)) :
    (s.enclosed d more).next? = some (c, t.enclosed d more) := by
  obtain ⟨offset, rest⟩ := s
  cases rest with
  | nil => simp [next?] at h
  | cons c' cs =>
    obtain ⟨rfl, rfl⟩ := Prod.mk.inj (Option.some.inj h)
    rw [← behind_enclosed]
    rfl

/-- Nothing but the parenthesis itself is found that was not there. -/
theorem skip?_enclosed (s : Source) (d : Nat) (more : List Char) (hc : c ≠ ')') :
    (s.enclosed d more).skip? c = (s.skip? c).map (·.enclosed d more) := by
  obtain ⟨offset, rest⟩ := s
  cases rest with
  | nil => exact if_neg (Ne.symm hc)
  | cons c' cs =>
    have henclosed := behind_enclosed ⟨offset, c' :: cs⟩ d more c' cs
    by_cases hc' : c' = c
    · unfold skip?
      simp only [enclosed, List.cons_append, if_pos hc', Option.map_some]
      exact congrArg some henclosed
    · unfold skip?
      simp only [enclosed, List.cons_append, if_neg hc', Option.map_none]

theorem accept_enclosed (s : Source) (d : Nat) (more : List Char) (hc : c ≠ ')') :
    (s.enclosed d more).accept c = ((s.accept c).1, (s.accept c).2.enclosed d more) := by
  unfold accept
  rw [skip?_enclosed s d more hc]
  cases s.skip? c with
  | none => rfl
  | some t => rfl

theorem skipAll?_enclosed (s : Source) (d : Nat) (more : List Char) (hcs : ∀ c ∈ cs, c ≠ ')') :
    (s.enclosed d more).skipAll? cs = (s.skipAll? cs).map (·.enclosed d more) := by
  induction cs generalizing s with
  | nil => rfl
  | cons c cs ih =>
    obtain ⟨hc, hcs⟩ := List.forall_mem_cons.mp hcs
    unfold skipAll? at ih ⊢
    rw [List.foldlM_cons, List.foldlM_cons, skip?_enclosed s d more hc]
    cases s.skip? c with
    | none => rfl
    | some t => exact ih t hcs

theorem spanFrom_enclosed {p : Char → Bool} (hp : p ')' = false) (offset d : Nat)
    (taken cs more : List Char) :
    spanFrom p (offset + d) taken (cs ++ ')' :: more) =
      ((spanFrom p offset taken cs).1, (spanFrom p offset taken cs).2.enclosed d more) := by
  induction cs generalizing offset taken with
  | nil => simp [spanFrom, hp, enclosed]
  | cons c cs ih =>
    rw [List.cons_append, spanFrom, spanFrom]
    split
    · rw [Nat.add_right_comm]
      exact ih _ _
    · rfl

theorem span_enclosed {p : Char → Bool} (s : Source) (d : Nat) (more : List Char)
    (hp : p ')' = false) :
    (s.enclosed d more).span p = ((s.span p).1, (s.span p).2.enclosed d more) :=
  spanFrom_enclosed hp s.offset d [] s.rest more

end Source

/-! ## What is read further on -/

/-- A head that is read so many bytes further on. -/
def GroupHead.moved (d : Nat) : GroupHead → GroupHead
  | .capture => .capture
  | .named name offset => .named name (offset + d)
  | .plain => .plain
  | .scoped changes => .scoped changes
  | .flags changes => .flags changes

/-- A token that is read so many bytes further on. -/
def Token.moved (d : Nat) : Token → Token
  | .opening (.ok head) => .opening (.ok (head.moved d))
  | token => token

open Source

variable {s t : Source} {c : Char} {more : List Char} {d o o' n : Nat}

/-! ## Escapes -/

namespace Escape

theorem hexDigits?_enclosed {ds : List Char} (h : hexDigits? n s = some (ds, t)) :
    hexDigits? n (s.enclosed d more) = some (ds, t.enclosed d more) := by
  induction n generalizing s ds with
  | zero =>
    obtain ⟨rfl, rfl⟩ := Prod.mk.inj (Option.some.inj h)
    rfl
  | succ n ih =>
    unfold hexDigits? at h ⊢
    split at h
    · simp at h
    · next c u hu =>
      rw [next?_enclosed hu]
      split at h
      · next hc =>
        obtain ⟨⟨ds', v⟩, hv, hp⟩ := Option.map_eq_some_iff.mp h
        obtain ⟨rfl, rfl⟩ := Prod.mk.inj hp
        simp only [if_pos hc, ih hv, Option.map_some]
      · simp at h

theorem hexChar?_enclosed (h : hexChar? n s = some (c, t)) :
    hexChar? n (s.enclosed d more) = some (c, t.enclosed d more) := by
  unfold hexChar? at h ⊢
  rw [skip?_enclosed s d more (by decide)]
  cases hs : s.skip? '\x7b' with
  | some inner =>
    rw [hs] at h
    dsimp only [Option.map_some] at h ⊢
    rw [span_enclosed inner d more (by decide)]
    dsimp only
    split at h
    · next hlength =>
      obtain ⟨u, hu, hm⟩ := Option.bind_eq_some_iff.mp h
      obtain ⟨c', hc', hp⟩ := Option.map_eq_some_iff.mp hm
      obtain ⟨rfl, rfl⟩ := Prod.mk.inj hp
      rw [if_pos hlength, skip?_enclosed _ d more (by decide), hu, hc']
      rfl
    · simp at h
  | none =>
    rw [hs] at h
    dsimp only [Option.map_none] at h ⊢
    obtain ⟨⟨ds, u⟩, hu, hm⟩ := Option.bind_eq_some_iff.mp h
    obtain ⟨c', hc', hp⟩ := Option.map_eq_some_iff.mp hm
    obtain ⟨rfl, rfl⟩ := Prod.mk.inj hp
    rw [hexDigits?_enclosed hu]
    simp only [Option.bind_some, hc', Option.map_some]

theorem scanChar_enclosed (h : scanChar o s = .ok (c, t)) :
    scanChar o' (s.enclosed d more) = .ok (c, t.enclosed d more) := by
  unfold scanChar at h ⊢
  split at h
  · simp at h
  · next c' u hu =>
    rw [next?_enclosed hu]
    dsimp only at h ⊢
    split at h
    · obtain ⟨rfl, rfl⟩ := Prod.mk.inj (Except.ok.inj h)
      rfl
    · split at h
      · next hx =>
        rw [if_pos hx]
        split at h
        · next r hr =>
          obtain rfl := Except.ok.inj h
          rw [hexChar?_enclosed hr]
        · simp at h
      · next hx =>
        rw [if_neg hx]
        split at h
        · next hu =>
          rw [if_pos hu]
          split at h
          · next r hr =>
            obtain rfl := Except.ok.inj h
            rw [hexChar?_enclosed hr]
          · simp at h
        · next hu =>
          rw [if_neg hu]
          split at h
          · next hm =>
            obtain ⟨rfl, rfl⟩ := Prod.mk.inj (Except.ok.inj h)
            rw [if_pos hm]
          · simp at h

end Escape

/-! ## Brackets -/

namespace BracketItem

theorem scanAtom_enclosed {a : Atom} (h : scanAtom o c s = .ok (a, t)) :
    scanAtom o' c (s.enclosed d more) = .ok (a, t.enclosed d more) := by
  unfold scanAtom at h ⊢
  split at h
  · next hc =>
    rw [if_pos hc]
    split at h
    · simp at h
    · next c' u hu =>
      rw [next?_enclosed hu]
      dsimp only
      split at h
      · next e _ =>
        obtain ⟨rfl, rfl⟩ := Prod.mk.inj (Except.ok.inj h)
        rfl
      · split at h
        · next hb =>
          obtain ⟨rfl, rfl⟩ := Prod.mk.inj (Except.ok.inj h)
          rw [if_pos hb]
        · next hb =>
          rw [if_neg hb]
          split at h
          · simp at h
          · next b v hv =>
            obtain ⟨rfl, rfl⟩ := Prod.mk.inj (Except.ok.inj h)
            rw [Escape.scanChar_enclosed hv]
  · next hc =>
    obtain ⟨rfl, rfl⟩ := Prod.mk.inj (Except.ok.inj h)
    rw [if_neg hc]

theorem scanNamed_enclosed {item : BracketItem} (h : scanNamed o s = .ok (item, t)) :
    scanNamed o' (s.enclosed d more) = .ok (item, t.enclosed d more) := by
  unfold scanNamed at h ⊢
  rw [accept_enclosed s d more (by decide)]
  dsimp only at h ⊢
  rw [span_enclosed _ d more (by decide)]
  dsimp only
  rw [skipAll?_enclosed _ d more (by simp)]
  split at h
  · next u members hu hmembers =>
    obtain ⟨rfl, rfl⟩ := Prod.mk.inj (Except.ok.inj h)
    rw [hu, hmembers]
    rfl
  · simp at h

/-- Only behind a dash it is looked whether there is anything more, and then the bracket is not
closed. -/
theorem scanAfterAtom_enclosed {a : Atom} {items : List BracketItem}
    (h : scanAfterAtom o a s = .ok (items, t)) (ht : t.rest ≠ []) :
    scanAfterAtom o' a (s.enclosed d more) = .ok (items, t.enclosed d more) := by
  unfold scanAfterAtom at h ⊢
  rw [skip?_enclosed s d more (by decide)]
  split at h
  · next hs =>
    obtain ⟨rfl, rfl⟩ := Prod.mk.inj (Except.ok.inj h)
    rw [hs]
    rfl
  · next u hu =>
    rw [hu]
    dsimp only [Option.map_some]
    split at h
    · next hnext =>
      obtain ⟨rfl, rfl⟩ := Prod.mk.inj (Except.ok.inj h)
      unfold next? at hnext
      split at hnext
      · next hrest => exact absurd hrest ht
      · simp at hnext
    · next c v hv =>
      rw [next?_enclosed hv]
      dsimp only
      split at h
      · next hc =>
        obtain ⟨rfl, rfl⟩ := Prod.mk.inj (Except.ok.inj h)
        rw [if_pos hc]
      · next hc =>
        rw [if_neg hc]
        split at h
        · simp at h
        · next b w hw =>
          rw [scanAtom_enclosed hw]
          dsimp only
          split at h
          · obtain ⟨rfl, rfl⟩ := Prod.mk.inj (Except.ok.inj h)
            rfl
          · simp at h

theorem scanItem_enclosed {items : List BracketItem} (h : scanItem o c s = .ok (items, t))
    (ht : t.rest ≠ []) :
    scanItem o' c (s.enclosed d more) = .ok (items, t.enclosed d more) := by
  have hnamed : (if c = '[' then (s.enclosed d more).skip? ':' else none) =
      (if c = '[' then s.skip? ':' else none).map (·.enclosed d more) := by
    split
    · exact skip?_enclosed s d more (by decide)
    · rfl
  unfold scanItem at h ⊢
  rw [hnamed]
  split at h
  · next u hu =>
    rw [hu]
    dsimp only [Option.map_some]
    split at h
    · simp at h
    · next item v hv =>
      obtain ⟨rfl, rfl⟩ := Prod.mk.inj (Except.ok.inj h)
      rw [scanNamed_enclosed hv]
  · next hnone =>
    rw [hnone]
    dsimp only [Option.map_none]
    split at h
    · simp at h
    · next a u hu =>
      rw [scanAtom_enclosed hu]
      exact scanAfterAtom_enclosed h ht

theorem rest_ne_nil_of_scanItems {read items : List BracketItem}
    (h : scanItems o read s = .ok (items, t)) : s.rest ≠ [] := by
  intro hrest
  have := scanItems_length h
  rw [hrest] at this
  simp at this

theorem scanItems_enclosed {read items : List BracketItem}
    (h : scanItems o read s = .ok (items, t)) :
    scanItems o' read (s.enclosed d more) = .ok (items, t.enclosed d more) := by
  fun_induction scanItems o read s with
  | case1 => simp at h
  | case2 read s u hs =>
    obtain ⟨rfl, rfl⟩ := Prod.mk.inj (Except.ok.inj h)
    rw [scanItems]
    split
    · next hnone => simp [next?_enclosed hs] at hnone
    · next hsome =>
      obtain ⟨rfl, rfl⟩ := Prod.mk.inj (Option.some.inj (hsome.symm.trans (next?_enclosed hs)))
      exact if_pos rfl
  | case3 => simp at h
  | case4 read s c u hs hc items' v hv ih =>
    have hitem : scanItem (s.offset + d) c (u.enclosed d more) = .ok (items', v.enclosed d more) :=
      scanItem_enclosed hv (rest_ne_nil_of_scanItems h)
    rw [scanItems]
    split
    · next hnone => simp [next?_enclosed hs] at hnone
    · next hsome =>
      obtain ⟨rfl, rfl⟩ := Prod.mk.inj (Option.some.inj (hsome.symm.trans (next?_enclosed hs)))
      rw [if_neg hc]
      split
      · next herror => exact absurd (herror.symm.trans hitem) (by simp)
      · next hok =>
        obtain ⟨rfl, rfl⟩ := Prod.mk.inj (Except.ok.inj (hok.symm.trans hitem))
        exact ih h

theorem scan_enclosed {token : Token} (h : scan o s = .ok (token, t)) :
    scan o' (s.enclosed d more) = .ok (token.moved d, t.enclosed d more) := by
  unfold scan at h ⊢
  rw [accept_enclosed s d more (by decide)]
  dsimp only at h ⊢
  rw [accept_enclosed _ d more (by decide)]
  dsimp only
  split at h
  · simp at h
  · next items u hu =>
    obtain ⟨rfl, rfl⟩ := Prod.mk.inj (Except.ok.inj h)
    rw [scanItems_enclosed hu]
    rfl

end BracketItem

/-! ## Heads of groups -/

namespace GroupHead

variable {head : GroupHead}

theorem scanName_enclosed (h : scanName s = .ok (head, t)) :
    scanName (s.enclosed d more) = .ok (head.moved d, t.enclosed d more) := by
  unfold scanName at h ⊢
  rw [span_enclosed s d more (by decide)]
  dsimp only at h ⊢
  rw [skip?_enclosed _ d more (by decide)]
  split at h
  · next u hu =>
    rw [hu]
    dsimp only [Option.map_some]
    split at h
    · next hname =>
      obtain ⟨rfl, rfl⟩ := Prod.mk.inj (Except.ok.inj h)
      rw [if_pos hname]
      rfl
    · simp at h
  · simp at h

theorem scanFlags_enclosed {on : Bool} {read : List FlagChange} {cs : List Char}
    (h : scanFlags on read o cs = .ok (head, t)) :
    scanFlags on read (o + d) (cs ++ ')' :: more) = .ok (head.moved d, t.enclosed d more) := by
  induction cs generalizing on read o with
  | nil => simp [scanFlags] at h
  | cons c cs ih =>
    have hmoved : (⟨o + d + c.utf8Size, cs ++ ')' :: more⟩ : Source) =
        Source.enclosed ⟨o + c.utf8Size, cs⟩ d more := by
      unfold enclosed
      rw [Nat.add_right_comm]
    rw [List.cons_append, scanFlags]
    rw [scanFlags] at h
    dsimp only at h ⊢
    rw [hmoved, Nat.add_right_comm]
    split at h
    · next hc =>
      obtain ⟨rfl, rfl⟩ := Prod.mk.inj (Except.ok.inj h)
      rw [if_pos hc]
      rfl
    · next hc =>
      rw [if_neg hc]
      split at h
      · next hc =>
        obtain ⟨rfl, rfl⟩ := Prod.mk.inj (Except.ok.inj h)
        rw [if_pos hc]
        rfl
      · next hc =>
        rw [if_neg hc]
        split at h
        · next hc =>
          rw [if_pos hc]
          exact ih h
        · next hc =>
          rw [if_neg hc]
          split at h
          · next hc =>
            rw [if_pos hc]
            exact ih h
          · simp at h

theorem scan_enclosed (h : scan s = .ok (head, t)) :
    scan (s.enclosed d more) = .ok (head.moved d, t.enclosed d more) := by
  unfold scan at h ⊢
  rw [skip?_enclosed s d more (by decide)]
  split at h
  · next hs =>
    obtain ⟨rfl, rfl⟩ := Prod.mk.inj (Except.ok.inj h)
    rw [hs]
    rfl
  · next u hu =>
    rw [hu]
    dsimp only [Option.map_some]
    rw [skipAll?_enclosed u d more (by simp), skip?_enclosed u d more (by decide),
      skip?_enclosed u d more (by decide)]
    split at h
    · next v hv =>
      rw [hv]
      exact scanName_enclosed h
    · next hv =>
      rw [hv]
      dsimp only [Option.map_none]
      split at h
      · next v hv =>
        rw [hv]
        exact scanName_enclosed h
      · next hv =>
        rw [hv]
        dsimp only [Option.map_none]
        split at h
        · next v hv =>
          obtain ⟨rfl, rfl⟩ := Prod.mk.inj (Except.ok.inj h)
          rw [hv]
          rfl
        · next hv =>
          rw [hv]
          exact scanFlags_enclosed h

end GroupHead

/-! ## Quantifiers -/

namespace Quantifier

theorem readCounts?_enclosed {q : Quantifier} (h : readCounts? s = some (q, t)) :
    readCounts? (s.enclosed d more) = some (q, t.enclosed d more) := by
  unfold readCounts? at h ⊢
  rw [span_enclosed s d more (by decide)]
  dsimp only at h ⊢
  rw [accept_enclosed _ d more (by decide)]
  dsimp only
  rw [span_enclosed _ d more (by rw [show Char.isDigit ')' = false by decide, Bool.and_false])]
  dsimp only
  rw [skip?_enclosed _ d more (by decide)]
  split at h
  · simp at h
  · next hlow =>
    obtain ⟨u, hu, hp⟩ := Option.map_eq_some_iff.mp h
    obtain ⟨rfl, rfl⟩ := Prod.mk.inj hp
    rw [if_neg hlow, hu]
    rfl

theorem scanCounts_enclosed {q : Quantifier} (h : scanCounts o s = .ok (q, t)) :
    scanCounts o' (s.enclosed d more) = .ok (q, t.enclosed d more) := by
  unfold scanCounts at h ⊢
  split at h
  · simp at h
  · next q u hu =>
    rw [readCounts?_enclosed hu]
    dsimp only
    split at h
    · simp at h
    · next hordered =>
      rw [if_neg hordered]
      split at h
      · simp at h
      · next hbounded =>
        obtain ⟨rfl, rfl⟩ := Prod.mk.inj (Except.ok.inj h)
        rw [if_neg hbounded]

theorem scanGreed_enclosed (q : Quantifier) (s : Source) (d : Nat) (more : List Char) :
    q.scanGreed (s.enclosed d more) = ((q.scanGreed s).1, (q.scanGreed s).2.enclosed d more) := by
  unfold scanGreed
  rw [accept_enclosed s d more (by decide)]

end Quantifier

/-! ## Tokens -/

/-- A token that opens no group with a head that is wrong. -/
def Token.Clean (token : Token) : Prop := ∀ e, token ≠ .opening (.error e)

namespace Token

variable {token : Token}

theorem scanEscape_enclosed (h : scanEscape o s = .ok (token, t)) :
    scanEscape o' (s.enclosed d more) = .ok (token.moved d, t.enclosed d more) := by
  unfold scanEscape at h ⊢
  split at h
  · simp at h
  · next c u hu =>
    rw [next?_enclosed hu]
    dsimp only
    split at h
    · obtain ⟨rfl, rfl⟩ := Prod.mk.inj (Except.ok.inj h)
      rfl
    · -- The letters of the assertions, and then the escapes of characters.
      split at h
      · next hc =>
        obtain ⟨rfl, rfl⟩ := Prod.mk.inj (Except.ok.inj h)
        exact if_pos hc
      · next hb =>
        rw [if_neg hb]
        split at h
        · next hc =>
          obtain ⟨rfl, rfl⟩ := Prod.mk.inj (Except.ok.inj h)
          exact if_pos hc
        · next hB =>
          rw [if_neg hB]
          split at h
          · next hc =>
            obtain ⟨rfl, rfl⟩ := Prod.mk.inj (Except.ok.inj h)
            exact if_pos hc
          · next hA =>
            rw [if_neg hA]
            split at h
            · next hc =>
              obtain ⟨rfl, rfl⟩ := Prod.mk.inj (Except.ok.inj h)
              exact if_pos hc
            · next hz =>
              rw [if_neg hz]
              split at h
              · simp at h
              · next c v hv =>
                obtain ⟨rfl, rfl⟩ := Prod.mk.inj (Except.ok.inj h)
                rw [Escape.scanChar_enclosed hv]
                rfl

theorem moved_single? {token : Token} (h : single? c = some token) : token.moved d = token := by
  unfold single? at h
  split at h
  all_goals first
    | obtain rfl := Option.some.inj h
      rfl
    | simp at h

theorem scan_enclosed (hclean : token.Clean) (h : scan o c s = .ok (token, t)) :
    scan o' c (s.enclosed d more) = .ok (token.moved d, t.enclosed d more) := by
  unfold scan at h ⊢
  split at h
  · next hsingle =>
    obtain ⟨rfl, rfl⟩ := Prod.mk.inj (Except.ok.inj h)
    rw [moved_single? hsingle]
  · next q _ _ =>
    have hgreed := Quantifier.scanGreed_enclosed q s d more
    rw [Except.ok.inj h] at hgreed
    obtain ⟨rfl, -⟩ := Prod.mk.inj (Except.ok.inj h)
    exact congrArg Except.ok hgreed
  · split at h
    · next hc =>
      rw [if_pos hc]
      split at h
      · simp at h
      · next q u hu =>
        have hgreed := Quantifier.scanGreed_enclosed q u d more
        rw [Except.ok.inj h] at hgreed
        obtain ⟨rfl, -⟩ := Prod.mk.inj (Except.ok.inj h)
        rw [Quantifier.scanCounts_enclosed hu]
        exact congrArg Except.ok hgreed
    · next hc =>
      rw [if_neg hc]
      split at h
      · next hc =>
        rw [if_pos hc]
        split at h
        · next e he =>
          obtain ⟨rfl, rfl⟩ := Prod.mk.inj (Except.ok.inj h)
          exact absurd rfl (hclean e)
        · next head u hu =>
          obtain ⟨rfl, rfl⟩ := Prod.mk.inj (Except.ok.inj h)
          rw [GroupHead.scan_enclosed hu]
          rfl
      · next hc =>
        rw [if_neg hc]
        split at h
        · next hc =>
          rw [if_pos hc]
          exact BracketItem.scan_enclosed h
        · next hc =>
          rw [if_neg hc]
          split at h
          · simp at h
          · next hc =>
            rw [if_neg hc]
            split at h
            · next hc =>
              rw [if_pos hc]
              exact scanEscape_enclosed h
            · next hc =>
              obtain ⟨rfl, rfl⟩ := Prod.mk.inj (Except.ok.inj h)
              exact if_neg hc

end Token

/-! ## Lexemes -/

namespace Lexeme

/-- A lexeme that is read so many bytes further on. -/
def moved (d : Nat) (lx : Lexeme) : Lexeme := ⟨lx.offset + d, lx.token.map (Token.moved d)⟩

/-- A lexeme that is in order. -/
def Clean (lx : Lexeme) : Prop := ∃ token, lx.token = .ok token ∧ token.Clean

/-- **A lexeme that is in order is read in front of a closing parenthesis as well.** -/
theorem next?_enclosed {lx : Lexeme} (hclean : lx.Clean) (h : next? s = some (lx, t)) :
    next? (s.enclosed d more) = some (lx.moved d, t.enclosed d more) := by
  unfold next? at h ⊢
  split at h
  · simp at h
  · next c u hu =>
    rw [Source.next?_enclosed hu]
    dsimp only
    split at h
    · obtain ⟨rfl, rfl⟩ := Prod.mk.inj (Option.some.inj h)
      obtain ⟨token, htoken, -⟩ := hclean
      simp at htoken
    · next token v hv =>
      obtain ⟨rfl, rfl⟩ := Prod.mk.inj (Option.some.inj h)
      obtain ⟨_, ⟨⟩, hclean⟩ := hclean
      rw [Token.scan_enclosed hclean hv]
      rfl

/-- The lexemes that a source is cut into. -/
def all (s : Source) : List Lexeme :=
  match _hs : next? s with
  | none => []
  | some (lx, t) => lx :: all t
termination_by s.rest.length
decreasing_by exact next?_length _hs

theorem all_of_next?_eq_none (h : next? s = none) : all s = [] := by
  rw [all]
  split
  · rfl
  · next hsome => simp [h] at hsome

theorem all_of_next?_eq_some {lx : Lexeme} (h : next? s = some (lx, t)) : all s = lx :: all t := by
  rw [all]
  split
  · next hnone => simp [h] at hnone
  · next hsome =>
    obtain ⟨rfl, rfl⟩ := Prod.mk.inj (Option.some.inj (h.symm.trans hsome))
    rfl

/-- The lexeme of a closing parenthesis. -/
theorem next?_closing (o : Nat) (cs : List Char) :
    next? ⟨o, ')' :: cs⟩ = some (⟨o, .ok .closing⟩, ⟨o + 1, cs⟩) := rfl

/-- **A pattern whose lexemes are in order is cut in the same way between parentheses.** -/
theorem all_enclosed (h : ∀ lx ∈ all s, lx.Clean) (d : Nat) (more : List Char) :
    ∃ o, all (s.enclosed d more) =
      (all s).map (moved d) ++ ⟨o, .ok .closing⟩ :: all ⟨o + 1, more⟩ := by
  induction hn : s.rest.length using Nat.strongRecOn generalizing s with
  | ind n ih =>
    subst hn
    cases hs : next? s with
    | none =>
      rw [all_of_next?_eq_none hs]
      obtain ⟨offset, rest⟩ := s
      cases rest with
      | nil => exact ⟨offset + d, all_of_next?_eq_some (next?_closing _ _)⟩
      | cons c cs =>
        unfold next? at hs
        dsimp only [Source.next?] at hs
        split at hs <;> simp at hs
    | some next =>
      obtain ⟨lx, t⟩ := next
      rw [all_of_next?_eq_some hs] at h ⊢
      obtain ⟨hclean, hmore⟩ := List.forall_mem_cons.mp h
      obtain ⟨o, ho⟩ := ih _ (next?_length hs) hmore rfl
      refine ⟨o, ?_⟩
      rw [all_of_next?_eq_some (next?_enclosed hclean hs), ho]
      rfl

end Lexeme

end LinearRegex
