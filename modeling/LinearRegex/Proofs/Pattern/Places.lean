import LinearRegex.Proofs.Pattern.Enclosed
import LinearRegex.Proofs.Text.Slice

/-!
# Places in a pattern

Reading leads from a place between two characters of a pattern to a later one, and what is wrong is
blamed on such a place: the one where reading begins, or one that is come by.

Main statements: `Token.leads_scan` for one token, `Lexeme.exists_reads_of_next?` for what one
lexeme takes in, and `Lexeme.placed_of_mem_all` for all lexemes of a pattern.
-/

namespace LinearRegex

open Utf8

namespace Source

/-! ## From one place to a later one -/

/-- Some characters are read on the way from one place to the other. -/
structure Reads (s : Source) (cs : List Char) (t : Source) : Prop where
  rest : s.rest = cs ++ t.rest
  offset : t.offset = s.offset + byteLength cs

/-- One place is not before the other. -/
def Reaches (s t : Source) : Prop := ∃ cs, s.Reads cs t

/-- Whether an offset is that of a place from a source on. -/
def HasPlace (s : Source) (o : Nat) : Prop := ∃ t, s.Reaches t ∧ t.offset = o

variable {s t u : Source} {c : Char} {cs ds : List Char} {o : Nat} {p : Char → Bool}

theorem Reads.refl (s : Source) : s.Reads [] s := ⟨rfl, rfl⟩

theorem Reads.trans (h : s.Reads cs t) (h' : t.Reads ds u) : s.Reads (cs ++ ds) u :=
  ⟨by rw [h.rest, h'.rest, List.append_assoc],
    by rw [h'.offset, h.offset, byteLength_append, Nat.add_assoc]⟩

theorem Reads.reaches (h : s.Reads cs t) : s.Reaches t := ⟨cs, h⟩

theorem Reads.offset_lt (h : s.Reads (c :: cs) t) : s.offset < t.offset := by
  have := byteLength_cons_ne_zero c cs
  rw [h.offset]
  omega

theorem Reaches.refl (s : Source) : s.Reaches s := (Reads.refl s).reaches

theorem Reaches.trans (h : s.Reaches t) (h' : t.Reaches u) : s.Reaches u := by
  obtain ⟨cs, h⟩ := h
  obtain ⟨ds, h'⟩ := h'
  exact (h.trans h').reaches

theorem Reaches.length_le (h : s.Reaches t) : t.rest.length ≤ s.rest.length := by
  obtain ⟨cs, h⟩ := h
  rw [h.rest, List.length_append]
  omega

theorem Reaches.offset_lt (h : s.Reaches t) (hlength : t.rest.length < s.rest.length) :
    s.offset < t.offset := by
  obtain ⟨cs, h⟩ := h
  rw [h.rest, List.length_append] at hlength
  cases cs with
  | nil => simp at hlength
  | cons c cs => exact h.offset_lt

theorem Reaches.hasPlace (h : s.Reaches t) : s.HasPlace t.offset := ⟨t, h, rfl⟩

theorem HasPlace.of_reaches (ho : t.HasPlace o) (h : s.Reaches t) : s.HasPlace o := by
  obtain ⟨u, hu, rfl⟩ := ho
  exact (h.trans hu).hasPlace

/-- **The places of a text** are those where it can be cut between two characters. -/
theorem hasPlace_ofString_iff {text : String} :
    (ofString text).HasPlace o ↔ (⟨o⟩ : String.Pos.Raw).IsValid text := by
  rw [String.Pos.Raw.isValid_iff_exists_append]
  constructor
  · rintro ⟨t, ⟨cs, hrest, hoffset⟩, rfl⟩
    refine ⟨String.ofList cs, String.ofList t.rest, ?_, ?_⟩
    · rw [← String.ofList_append, ← hrest]
      exact String.ofList_toList.symm
    · rw [hoffset, String.rawEndPos, ← byteLength_toList, String.toList_ofList]
      exact congrArg _ (Nat.zero_add _)
  · rintro ⟨before, after, rfl, ho⟩
    refine ⟨⟨o, after.toList⟩, ⟨before.toList, String.toList_append, ?_⟩, rfl⟩
    rw [byteLength_toList]
    exact (congrArg String.Pos.Raw.byteIdx ho).trans (Nat.zero_add _).symm

/-! ## The unread part -/

theorem reads_of_next? (h : s.next? = some (c, t)) : s.Reads [c] t := by
  unfold next? at h
  split at h
  · simp at h
  · next d cs hs =>
    obtain ⟨rfl, rfl⟩ := Prod.mk.inj (Option.some.inj h)
    exact ⟨hs, rfl⟩

theorem reads_of_skip? (h : s.skip? c = some t) : s.Reads [c] t := by
  unfold skip? at h
  split at h
  · simp at h
  · next d cs hs =>
    split at h
    · next hd =>
      subst hd
      obtain rfl := Option.some.inj h
      exact ⟨hs, rfl⟩
    · simp at h

theorem ne_of_skip?_eq_none (h : s.skip? c = none) : ∀ d ∈ s.rest.head?, d ≠ c := by
  intro d hd
  obtain ⟨cs, hs⟩ := List.head?_eq_some_iff.mp hd
  unfold skip? at h
  rw [hs] at h
  rintro rfl
  simp at h

theorem reads_of_skipAll? (h : s.skipAll? cs = some t) : s.Reads cs t := by
  induction cs generalizing s with
  | nil =>
    obtain rfl := Option.some.inj h
    exact .refl s
  | cons c cs ih =>
    obtain ⟨u, hu, ht⟩ := Option.bind_eq_some_iff.mp (List.foldlM_cons.symm.trans h)
    exact (reads_of_skip? hu).trans (ih ht)

theorem accept_eq_or (s : Source) (c : Char) :
    (∃ t, s.skip? c = some t ∧ s.accept c = (true, t)) ∨
      s.skip? c = none ∧ s.accept c = (false, s) := by
  unfold accept
  cases s.skip? c with
  | none => exact .inr ⟨rfl, rfl⟩
  | some t => exact .inl ⟨t, rfl, rfl⟩

theorem reaches_accept (s : Source) (c : Char) : s.Reaches (s.accept c).2 := by
  rcases accept_eq_or s c with ⟨t, ht, h⟩ | ⟨-, h⟩
  · rw [h]
    exact (reads_of_skip? ht).reaches
  · rw [h]
    exact .refl s

theorem spanFrom_eq (p : Char → Bool) (o : Nat) (taken cs : List Char) :
    spanFrom p o taken cs =
      (taken.reverse ++ (spanFrom p o [] cs).1, (spanFrom p o [] cs).2) := by
  induction cs generalizing o taken with
  | nil => simp [spanFrom]
  | cons c cs ih =>
    unfold spanFrom
    split
    · rw [ih _ (c :: taken), ih _ [c]]
      simp
    · simp

theorem span_nil (p : Char → Bool) (o : Nat) : span ⟨o, []⟩ p = ([], ⟨o, []⟩) := rfl

theorem span_cons_pos (hc : p c = true) (o : Nat) (cs : List Char) :
    span ⟨o, c :: cs⟩ p =
      (c :: (span ⟨o + c.utf8Size, cs⟩ p).1, (span ⟨o + c.utf8Size, cs⟩ p).2) := by
  unfold span
  rw [spanFrom, if_pos hc, spanFrom_eq]
  rfl

theorem span_cons_neg (hc : p c = false) (o : Nat) (cs : List Char) :
    span ⟨o, c :: cs⟩ p = ([], ⟨o, c :: cs⟩) := by
  unfold span
  rw [spanFrom, if_neg (by simp [hc])]
  rfl

/-- What a span takes in passes the test. -/
theorem reads_span (s : Source) (p : Char → Bool) :
    s.Reads (s.span p).1 (s.span p).2 ∧ ∀ c ∈ (s.span p).1, p c = true := by
  obtain ⟨o, cs⟩ := s
  induction cs generalizing o with
  | nil => exact ⟨.refl _, by simp [span_nil]⟩
  | cons c cs ih =>
    by_cases hc : p c = true
    · rw [span_cons_pos hc]
      obtain ⟨hreads, hall⟩ := ih (o + c.utf8Size)
      have hnext : (⟨o, c :: cs⟩ : Source).Reads [c] ⟨o + c.utf8Size, cs⟩ := ⟨rfl, rfl⟩
      exact ⟨hnext.trans hreads, List.forall_mem_cons.mpr ⟨hc, hall⟩⟩
    · rw [span_cons_neg (by simpa using hc)]
      exact ⟨.refl _, by simp⟩

theorem reaches_span (s : Source) (p : Char → Bool) : s.Reaches (s.span p).2 :=
  (reads_span s p).1.reaches

/-! ## What reading leads to -/

/-- A result of reading from a place on: a later place is reached, or one is blamed. -/
def Leads {α : Type} (s : Source) : Except PatternError (α × Source) → Prop
  | .ok (_, t) => s.Reaches t
  | .error e => s.HasPlace e.offset

namespace Leads

variable {α : Type} {r : Except PatternError (α × Source)}

theorem reaches (hr : s.Leads r) {a : α} (h : r = .ok (a, t)) : s.Reaches t := by
  subst h
  exact hr

theorem hasPlace (hr : s.Leads r) {e : PatternError} (h : r = .error e) : s.HasPlace e.offset := by
  subst h
  exact hr

theorem of_reaches (hr : t.Leads r) (h : s.Reaches t) : s.Leads r := by
  cases r with
  | ok a => exact h.trans hr
  | error e => exact HasPlace.of_reaches hr h

end Leads

end Source

open Source

variable {s t u : Source} {o : Nat} {c : Char}

/-! ## Escapes -/

namespace Escape

theorem reaches_of_hexDigits? {n : Nat} {ds : List Char} (h : hexDigits? n s = some (ds, t)) :
    s.Reaches t := by
  induction n generalizing s ds with
  | zero =>
    obtain ⟨-, rfl⟩ := Prod.mk.inj (Option.some.inj h)
    exact .refl s
  | succ n ih =>
    unfold hexDigits? at h
    split at h
    · simp at h
    · next c u hu =>
      split at h
      · obtain ⟨⟨ds', v⟩, hv, hp⟩ := Option.map_eq_some_iff.mp h
        obtain ⟨-, rfl⟩ := Prod.mk.inj hp
        exact (reads_of_next? hu).reaches.trans (ih hv)
      · simp at h

theorem reaches_of_hexChar? {n : Nat} (h : hexChar? n s = some (c, t)) : s.Reaches t := by
  unfold hexChar? at h
  split at h
  · next inner hinner =>
    dsimp only at h
    split at h
    · obtain ⟨u, hu, hm⟩ := Option.bind_eq_some_iff.mp h
      obtain ⟨d, -, hp⟩ := Option.map_eq_some_iff.mp hm
      obtain ⟨-, rfl⟩ := Prod.mk.inj hp
      have hdigits := (reads_of_skip? hinner).reaches.trans (reaches_span inner isHexDigit)
      exact hdigits.trans (reads_of_skip? hu).reaches
    · simp at h
  · obtain ⟨⟨ds, u⟩, hu, hm⟩ := Option.bind_eq_some_iff.mp h
    obtain ⟨d, -, hp⟩ := Option.map_eq_some_iff.mp hm
    obtain ⟨-, rfl⟩ := Prod.mk.inj hp
    exact reaches_of_hexDigits? hu

theorem leads_hexChar (h : s.Reaches t) (n : Nat) :
    s.Leads (match hexChar? n t with
      | some result => .ok result
      | none => .error ⟨.invalidEscape, s.offset⟩) := by
  split
  · next r hr => exact h.trans (reaches_of_hexChar? hr)
  · exact (Reaches.refl s).hasPlace

theorem leads_scanChar (h : s.Reaches t) : s.Leads (scanChar s.offset t) := by
  have hs : s.HasPlace s.offset := (Reaches.refl s).hasPlace
  unfold scanChar
  split
  · exact hs
  · next c u hu =>
    have hu := h.trans (reads_of_next? hu).reaches
    have hhex := fun n => leads_hexChar hu n
    dsimp only
    split
    · exact hu
    · split
      · exact hhex 2
      · split
        · exact hhex 4
        · split
          · exact hu
          · exact hs

end Escape

/-! ## Brackets -/

namespace BracketItem

theorem leads_scanAtom (h : s.Reaches t) (c : Char) : s.Leads (scanAtom s.offset c t) := by
  unfold scanAtom
  split
  · split
    · exact (Reaches.refl s).hasPlace
    · next d u hu =>
      have hu := h.trans (reads_of_next? hu).reaches
      split
      · exact hu
      · split
        · exact hu
        · split
          · next e he => exact (Escape.leads_scanChar h).hasPlace he
          · next d v hv => exact (Escape.leads_scanChar h).reaches hv
  · exact h

theorem leads_scanNamed (h : s.Reaches t) : s.Leads (scanNamed s.offset t) := by
  unfold scanNamed
  dsimp only
  have hname := (h.trans (reaches_accept t '^')).trans (reaches_span _ Char.isLower)
  split
  · next u _ hu _ => exact hname.trans (reads_of_skipAll? hu).reaches
  · exact (Reaches.refl s).hasPlace

theorem leads_scanAfterAtom (h : s.Reaches t) (a : Atom) :
    s.Leads (scanAfterAtom s.offset a t) := by
  unfold scanAfterAtom
  split
  · exact h
  · next u hu =>
    have hu := h.trans (reads_of_skip? hu).reaches
    split
    · exact hu
    · next c v hv =>
      split
      · exact hu
      · have hatom := (leads_scanAtom (reads_of_next? hv).reaches c).of_reaches hu
        split
        · next e he => exact hatom.hasPlace he
        · next b w hw =>
          have hw := hatom.reaches hw
          split
          · exact hw
          · exact (Reaches.refl s).hasPlace

theorem leads_scanItem (h : s.Reaches t) (c : Char) : s.Leads (scanItem s.offset c t) := by
  unfold scanItem
  split
  · next u hu =>
    have hu : s.Reaches u := by
      split at hu
      · exact h.trans (reads_of_skip? hu).reaches
      · simp at hu
    split
    · next e he => exact (leads_scanNamed hu).hasPlace he
    · next item v hv => exact (leads_scanNamed hu).reaches hv
  · have hatom := leads_scanAtom h c
    split
    · next e he => exact hatom.hasPlace he
    · next a u hu => exact leads_scanAfterAtom (hatom.reaches hu) a

theorem leads_scanItems (h : s.Reaches t) (read : List BracketItem) :
    s.Leads (scanItems s.offset read t) := by
  fun_induction scanItems s.offset read t with
  | case1 => exact (Reaches.refl s).hasPlace
  | case2 read t u hu => exact h.trans (reads_of_next? hu).reaches
  | case3 read t c u hu hc e he =>
    have hitem := (leads_scanItem (reads_of_next? hu).reaches c).of_reaches h
    exact hitem.hasPlace he
  | case4 read t c u hu hc items v hv ih =>
    have hitem := (leads_scanItem (reads_of_next? hu).reaches c).of_reaches h
    exact ih (hitem.reaches hv)

theorem leads_scan (h : s.Reaches t) : s.Leads (scan s.offset t) := by
  have hitems := fun read => leads_scanItems
    ((h.trans (reaches_accept t '^')).trans (reaches_accept (t.accept '^').2 ']')) read
  unfold scan
  dsimp only
  split
  · next e he => exact (hitems _).hasPlace he
  · next items u hu => exact (hitems _).reaches hu

end BracketItem

/-! ## Heads of groups -/

namespace GroupHead

/-- Whether the name in the head of a group, if there is one, is at a place. -/
def Placed (s : Source) : GroupHead → Prop
  | .named _ o => s.HasPlace o
  | _ => True

theorem Placed.of_reaches {head : GroupHead} (hhead : head.Placed t) (h : s.Reaches t) :
    head.Placed s := by
  cases head with
  | named name o => exact HasPlace.of_reaches hhead h
  | _ => trivial

theorem leads_scanName (s : Source) : s.Leads (scanName s) := by
  have hs : s.HasPlace s.offset := (Reaches.refl s).hasPlace
  unfold scanName
  dsimp only
  split
  · next u hu =>
    split
    · exact (reaches_span s isNameChar).trans (reads_of_skip? hu).reaches
    · exact hs
  · exact hs

theorem placed_of_scanName {head : GroupHead} (h : scanName s = .ok (head, t)) :
    head.Placed s := by
  unfold scanName at h
  dsimp only at h
  split at h
  · split at h
    · obtain ⟨rfl, -⟩ := Prod.mk.inj (Except.ok.inj h)
      exact (Reaches.refl s).hasPlace
    · simp at h
  · simp at h

theorem leads_scanFlags (on : Bool) (read : List FlagChange) (o : Nat) (cs : List Char) :
    (⟨o, cs⟩ : Source).Leads (scanFlags on read o cs) ∧
      ∀ head t, scanFlags on read o cs = .ok (head, t) → ∀ s, head.Placed s := by
  induction cs generalizing on read o with
  | nil => exact ⟨(Reaches.refl _).hasPlace, by simp [scanFlags]⟩
  | cons c cs ih =>
    have hc : (⟨o, c :: cs⟩ : Source).Reaches ⟨o + c.utf8Size, cs⟩ := ⟨[c], rfl, rfl⟩
    unfold scanFlags
    dsimp only
    split
    · refine ⟨hc, fun head t h s => ?_⟩
      obtain ⟨rfl, -⟩ := Prod.mk.inj (Except.ok.inj h)
      trivial
    · split
      · refine ⟨hc, fun head t h s => ?_⟩
        obtain ⟨rfl, -⟩ := Prod.mk.inj (Except.ok.inj h)
        trivial
      · split
        · exact ⟨(ih _ _ _).1.of_reaches hc, (ih _ _ _).2⟩
        · split
          · exact ⟨(ih _ _ _).1.of_reaches hc, (ih _ _ _).2⟩
          · exact ⟨(Reaches.refl _).hasPlace, by simp⟩

theorem leads_scan (s : Source) :
    s.Leads (scan s) ∧ ∀ head t, scan s = .ok (head, t) → head.Placed s := by
  have hname : ∀ {u}, s.Reaches u → s.Leads (scanName u) ∧
      ∀ head t, scanName u = .ok (head, t) → head.Placed s := by
    intro u hu
    exact ⟨(leads_scanName u).of_reaches hu, fun head t h => (placed_of_scanName h).of_reaches hu⟩
  unfold scan
  split
  · refine ⟨.refl s, fun head t h => ?_⟩
    obtain ⟨rfl, -⟩ := Prod.mk.inj (Except.ok.inj h)
    trivial
  · next u hu =>
    have hu := (reads_of_skip? hu).reaches
    split
    · next v hv => exact hname (hu.trans (reads_of_skipAll? hv).reaches)
    · split
      · next v hv => exact hname (hu.trans (reads_of_skip? hv).reaches)
      · split
        · next v hv =>
          refine ⟨hu.trans (reads_of_skip? hv).reaches, fun head t h => ?_⟩
          obtain ⟨rfl, -⟩ := Prod.mk.inj (Except.ok.inj h)
          trivial
        · have hflags := leads_scanFlags true [] u.offset u.rest
          exact ⟨hflags.1.of_reaches hu, fun head t h => hflags.2 head t h s⟩

end GroupHead

/-! ## Quantifiers -/

namespace Quantifier

theorem reaches_of_readCounts? {q : Quantifier} (h : readCounts? s = some (q, t)) :
    s.Reaches t := by
  unfold readCounts? at h
  dsimp only at h
  split at h
  · simp at h
  · obtain ⟨u, hu, hp⟩ := Option.map_eq_some_iff.mp h
    obtain ⟨-, rfl⟩ := Prod.mk.inj hp
    have hlow := (reaches_span s Char.isDigit).trans (reaches_accept _ ',')
    exact (hlow.trans (reaches_span _ _)).trans (reads_of_skip? hu).reaches

theorem leads_scanCounts (h : s.Reaches t) : s.Leads (scanCounts s.offset t) := by
  have hs : s.HasPlace s.offset := (Reaches.refl s).hasPlace
  unfold scanCounts
  split
  · exact hs
  · next q u hu =>
    split
    · exact hs
    · split
      · exact hs
      · exact h.trans (reaches_of_readCounts? hu)

end Quantifier

/-! ## Tokens -/

namespace Token

/-- Whether what is wrong with the head of a group, or else its name, is at a place. -/
def Placed (s : Source) : Token → Prop
  | .opening (.error e) => s.HasPlace e.offset
  | .opening (.ok head) => head.Placed s
  | _ => True

theorem Placed.of_reaches {token : Token} (htoken : token.Placed t) (h : s.Reaches t) :
    token.Placed s := by
  cases token with
  | opening head =>
    cases head with
    | error e => exact HasPlace.of_reaches htoken h
    | ok head => exact GroupHead.Placed.of_reaches htoken h
  | _ => trivial

theorem leads_scanEscape (h : s.Reaches t) : s.Leads (scanEscape s.offset t) := by
  unfold scanEscape
  split
  · exact (Reaches.refl s).hasPlace
  · next c u hu =>
    have hu := h.trans (reads_of_next? hu).reaches
    have hchar := Escape.leads_scanChar h
    split
    · exact hu
    · repeat' split
      · exact hu
      · exact hu
      · exact hu
      · exact hu
      · next e he => exact hchar.hasPlace he
      · next c v hv => exact hchar.reaches hv

/-- **Where reading a token leads.** -/
theorem leads_scan (h : s.Reaches t) (c : Char) : s.Leads (scan s.offset c t) := by
  unfold scan
  split
  · exact h
  · exact h.trans (reaches_accept t '?')
  · split
    · have hcounts := Quantifier.leads_scanCounts h
      split
      · next e he => exact hcounts.hasPlace he
      · next q u hu => exact (hcounts.reaches hu).trans (reaches_accept u '?')
    · split
      · split
        · exact h
        · next head u hu => exact h.trans ((GroupHead.leads_scan t).1.reaches hu)
      · split
        · exact BracketItem.leads_scan h
        · split
          · exact (Reaches.refl s).hasPlace
          · split
            · exact leads_scanEscape h
            · exact h

theorem placed_of_scan (h : s.Reaches t) {token : Token}
    (hscan : scan s.offset c t = .ok (token, u)) : token.Placed s := by
  unfold scan at hscan
  split at hscan
  · next hsingle =>
    obtain ⟨rfl, -⟩ := Prod.mk.inj (Except.ok.inj hscan)
    unfold single? at hsingle
    split at hsingle
    all_goals first
      | obtain rfl := Option.some.inj hsingle
        trivial
      | simp at hsingle
  · obtain ⟨rfl, -⟩ := Prod.mk.inj (Except.ok.inj hscan)
    trivial
  · split at hscan
    · split at hscan
      · simp at hscan
      · obtain ⟨rfl, -⟩ := Prod.mk.inj (Except.ok.inj hscan)
        trivial
    · split at hscan
      · have hhead := GroupHead.leads_scan t
        split at hscan
        · next e he =>
          obtain ⟨rfl, -⟩ := Prod.mk.inj (Except.ok.inj hscan)
          exact (hhead.1.hasPlace he).of_reaches h
        · next head v hv =>
          obtain ⟨rfl, -⟩ := Prod.mk.inj (Except.ok.inj hscan)
          exact (hhead.2 head v hv).of_reaches h
      · split at hscan
        · unfold BracketItem.scan at hscan
          dsimp only at hscan
          split at hscan
          · simp at hscan
          · obtain ⟨rfl, -⟩ := Prod.mk.inj (Except.ok.inj hscan)
            trivial
        · split at hscan
          · simp at hscan
          · split at hscan
            · unfold scanEscape at hscan
              repeat' split at hscan
              all_goals first
                | obtain ⟨rfl, -⟩ := Prod.mk.inj (Except.ok.inj hscan)
                  trivial
                | simp at hscan
            · obtain ⟨rfl, -⟩ := Prod.mk.inj (Except.ok.inj hscan)
              trivial

end Token

/-! ## Lexemes -/

namespace Lexeme

variable {lx : Lexeme}

/-- A lexeme that begins at a place, and blames a place if something is wrong. -/
structure Placed (s : Source) (lx : Lexeme) : Prop where
  offset : s.HasPlace lx.offset
  error : ∀ e, lx.token = .error e → s.HasPlace e.offset
  token : ∀ token, lx.token = .ok token → token.Placed s

theorem placed_of_next? (h : next? s = some (lx, t)) : lx.Placed s ∧ s.Reaches t := by
  have hs := (Reaches.refl s).hasPlace
  unfold next? at h
  split at h
  · simp at h
  · next c u hu =>
    have hu := (reads_of_next? hu).reaches
    have hscan := Token.leads_scan hu c
    split at h
    · next e he =>
      obtain ⟨rfl, rfl⟩ := Prod.mk.inj (Option.some.inj h)
      refine ⟨⟨hs, fun e' h' => ?_, by simp⟩, hu⟩
      exact Except.error.inj h' ▸ hscan.hasPlace he
    · next token v hv =>
      obtain ⟨rfl, rfl⟩ := Prod.mk.inj (Option.some.inj h)
      refine ⟨⟨hs, by simp, fun token' h' => ?_⟩, hscan.reaches hv⟩
      exact Except.ok.inj h' ▸ Token.placed_of_scan hu hv

theorem offset_of_next? (h : next? s = some (lx, t)) : lx.offset = s.offset := by
  unfold next? at h
  split at h
  · simp at h
  · split at h <;>
    · obtain ⟨rfl, -⟩ := Prod.mk.inj (Option.some.inj h)
      rfl

/-- **A lexeme takes in the characters** between its place and the next one, at least one. -/
theorem exists_reads_of_next? (h : next? s = some (lx, t)) : ∃ c cs, s.Reads (c :: cs) t := by
  obtain ⟨cs, hcs⟩ := (placed_of_next? h).2
  have hlength := next?_length h
  rw [hcs.rest, List.length_append] at hlength
  cases cs with
  | nil => simp at hlength
  | cons c cs => exact ⟨c, cs, hcs⟩

theorem Placed.of_reaches (hlx : lx.Placed t) (h : s.Reaches t) : lx.Placed s :=
  ⟨hlx.offset.of_reaches h, fun e he => (hlx.error e he).of_reaches h,
    fun token ht => (hlx.token token ht).of_reaches h⟩

/-- **The lexemes of a pattern** begin at places of it, and so does all that is blamed. -/
theorem placed_of_mem_all (s : Source) : ∀ lx ∈ all s, lx.Placed s := by
  fun_induction all s with
  | case1 s hs => simp
  | case2 s lx t hs ih =>
    obtain ⟨hlx, ht⟩ := placed_of_next? hs
    exact List.forall_mem_cons.mpr ⟨hlx, fun lx hlx => (ih lx hlx).of_reaches ht⟩

end Lexeme

end LinearRegex
