import LinearRegex.Proofs.Bracket.Spelled

/-!
# Brackets are read as they are spelled

Item by item, a bracket is read just when it is spelled as one, and what is read is what is spelled.

Main statements: `BracketItem.scanItems_eq_ok_iff` for the items, and `BracketItem.scan_eq_ok_iff`
for the whole bracket.
-/

namespace LinearRegex.BracketItem

open Source

variable {s t u v : Source} {o : Nat} {c : Char} {text rest : List Char} {a : Atom}
variable {item : BracketItem} {items more : List BracketItem}

/-! ## Named classes -/

theorem isLower_of_named? {name : String} {members : List Interval}
    (h : CharSet.Ascii.named? name = some members) : ∀ c ∈ name.toList, c.isLower = true := by
  refine List.all_eq_true.mp ?_
  unfold CharSet.Ascii.named? at h
  split at h
  all_goals first
    | decide
    | simp at h

theorem scanNamed_eq_ok_iff : scanNamed o s = .ok (item, t) ↔ ∃ negated name members,
    CharSet.Ascii.named? name = some members ∧ item = .named members negated ∧
      s.Reads (mark negated '^' ++ name.toList ++ [':', ']']) t := by
  constructor
  · intro h
    unfold scanNamed at h
    dsimp only at h
    split at h
    · next members hskip hmembers =>
      obtain ⟨rfl, rfl⟩ := Prod.mk.inj (Except.ok.inj h)
      refine ⟨_, _, members, hmembers, rfl, ?_⟩
      rw [String.toList_ofList]
      exact ((reads_accept s '^').1.trans (reads_span _ _).1).trans (reads_of_skipAll? hskip)
    · simp at h
  · rintro ⟨negated, name, members, hmembers, rfl, hreads⟩
    have hlower := isLower_of_named? hmembers
    rw [List.append_assoc] at hreads
    obtain ⟨u, hmark, hreads⟩ := hreads.split
    obtain ⟨v, hname, hclose⟩ := hreads.split
    have hcaret : u.rest.head? ≠ some '^' := by
      rw [hname.rest, hclose.rest]
      cases hchars : name.toList with
      | nil => simp
      | cons d ds =>
        intro hhead
        obtain rfl := Option.some.inj hhead
        exact absurd (hlower _ (hchars ▸ List.mem_cons_self)) (by decide)
    have hspan : u.span Char.isLower = (name.toList, v) := by
      refine span_eq hname hlower ⟨':', ?_, by decide⟩
      rw [hclose.rest]
      rfl
    unfold scanNamed
    rw [accept_eq hmark fun _ => hcaret]
    dsimp only
    rw [hspan, skipAll?_eq_some_iff.mpr hclose, String.ofList_toList, hmembers]

/-! ## What follows an atom -/

/-- What is read behind an atom, and what the atom is part of. -/
inductive Followed (a : Atom) (s : Source) : List BracketItem → Source → Prop
  | alone (h : s.rest.head? ≠ some '-') : Followed a s [a.item] s
  | range {x y : Char} {high : List Char} {t : Source} (ha : a = .char x)
    (hb : (Atom.char y).Spelled high) (hle : x ≤ y) (h : s.Reads ('-' :: high) t) :
    Followed a s [.range x y] t
  | dash {t : Source} (h : s.Reads ['-'] t) (ht : ∀ c ∈ t.rest.head?, c = ']') :
    Followed a s [a.item, .char '-'] t

theorem range?_eq_some_iff {b : Atom} : range? a b = some item ↔
    ∃ x y, a = .char x ∧ b = .char y ∧ x ≤ y ∧ item = .range x y := by
  cases a with
  | escape e => simp [range?]
  | char x =>
    cases b with
    | escape e => simp [range?]
    | char y => simp [range?, eq_comm]

theorem scanAfterAtom_eq_ok_iff :
    scanAfterAtom o a s = .ok (items, t) ↔ Followed a s items t := by
  constructor
  · intro h
    unfold scanAfterAtom at h
    split at h
    · next hskip =>
      obtain ⟨rfl, rfl⟩ := Prod.mk.inj (Except.ok.inj h)
      exact .alone (skip?_eq_none_iff.mp hskip)
    · next u hskip =>
      have hdash := reads_of_skip? hskip
      split at h
      · next hnext =>
        obtain ⟨rfl, rfl⟩ := Prod.mk.inj (Except.ok.inj h)
        refine .dash hdash fun c hc => ?_
        unfold next? at hnext
        split at hnext
        · next hrest =>
          rw [hrest] at hc
          simp at hc
        · simp at hnext
      · next c v hnext =>
        have hc := reads_of_next? hnext
        split at h
        · next hclosing =>
          subst hclosing
          obtain ⟨rfl, rfl⟩ := Prod.mk.inj (Except.ok.inj h)
          refine .dash hdash fun c hhead => ?_
          rw [hc.rest] at hhead
          exact (Option.some.inj hhead).symm
        · next hclosing =>
          split at h
          · simp at h
          · next b w hatom =>
            split at h
            · next item hrange =>
              obtain ⟨rfl, rfl⟩ := Prod.mk.inj (Except.ok.inj h)
              obtain ⟨x, y, rfl, rfl, hle, rfl⟩ := range?_eq_some_iff.mp hrange
              obtain ⟨high, hhigh, hreads⟩ := (scanAtom_eq_ok_iff hclosing).mp hatom
              exact .range rfl hhigh hle (hdash.trans (hc.trans hreads))
            · simp at h
  · intro h
    unfold scanAfterAtom
    cases h with
    | alone h => rw [skip?_eq_none_iff.mpr h]
    | @range x y high _ ha hb hle h =>
      subst ha
      obtain ⟨u, hdash, hhigh⟩ := h.split_cons
      obtain ⟨d, ds, rfl, hclosing⟩ := hb.exists_cons
      obtain ⟨v, hd, hds⟩ := hhigh.split_cons
      rw [skip?_eq_some_iff.mpr hdash]
      dsimp only
      rw [next?_eq_some_iff.mpr hd]
      dsimp only
      rw [if_neg hclosing, (scanAtom_eq_ok_iff hclosing).mpr ⟨ds, hb, hds⟩]
      dsimp only
      rw [range?_eq_some_iff.mpr ⟨x, y, rfl, rfl, hle, rfl⟩]
    | @dash t h ht =>
      rw [skip?_eq_some_iff.mpr h]
      dsimp only
      cases hnext : t.next? with
      | none => rfl
      | some next =>
        obtain ⟨c, u⟩ := next
        have hc : c = ']' := ht c (by rw [(reads_of_next? hnext).rest]; rfl)
        exact if_pos hc

/-! ## Items -/

/-- What is read as one item, or as an item and a dash: a named class, or an atom and what follows
it. -/
inductive Item (s : Source) : List BracketItem → Source → Prop
  | named {name : String} {members : List Interval} {negated : Bool} {t : Source}
    (hname : CharSet.Ascii.named? name = some members)
    (h : s.Reads ('[' :: ':' :: (mark negated '^' ++ name.toList ++ [':', ']'])) t) :
    Item s [.named members negated] t
  | atom {text : List Char} {a : Atom} {t u : Source} {items : List BracketItem}
    (ha : a.Spelled text) (h : s.Reads text t)
    (hnamed : text = ['['] → t.rest.head? ≠ some ':') (hfollowed : Followed a t items u) :
    Item s items u

/-- What an opening bracket begins is a character if it is an atom. -/
theorem Atom.Spelled.eq_nil_of_opening (h : a.Spelled ('[' :: text)) : text = [] := by
  cases h
  rfl

/-- An atom is read before what follows it, if it does not begin a named class. -/
theorem scanItem_atom {ds : List Char} (ha : a.Spelled (c :: ds)) (hds : t.Reads ds u)
    (hnamed : c :: ds = ['['] → u.rest.head? ≠ some ':') (o : Nat) :
    scanItem o c t = scanAfterAtom o a u := by
  obtain ⟨d, ds', heq, hclosing⟩ := ha.exists_cons
  obtain ⟨rfl, rfl⟩ := List.cons_eq_cons.mp heq
  have hnone : (if c = '[' then t.skip? ':' else none) = none := by
    split
    · next hopening =>
      subst hopening
      obtain rfl := ha.eq_nil_of_opening
      obtain rfl := Reads.eq (Reads.refl t) hds
      exact skip?_eq_none_iff.mpr (hnamed rfl)
    · rfl
  unfold scanItem
  rw [hnone]
  dsimp only
  rw [(scanAtom_eq_ok_iff hclosing).mpr ⟨ds, ha, hds⟩]

theorem scanItem_eq_ok_iff (hc : s.Reads [c] t) (hclosing : c ≠ ']') :
    scanItem o c t = .ok (items, u) ↔ Item s items u := by
  constructor
  · intro h
    unfold scanItem at h
    split at h
    · next v hv =>
      split at hv
      · next hopening =>
        subst hopening
        split at h
        · simp at h
        · next item w hnamed =>
          obtain ⟨rfl, rfl⟩ := Prod.mk.inj (Except.ok.inj h)
          obtain ⟨negated, name, members, hname, rfl, hreads⟩ := scanNamed_eq_ok_iff.mp hnamed
          exact .named hname (hc.trans ((reads_of_skip? hv).trans hreads))
      · simp at hv
    · next hnone =>
      split at h
      · simp at h
      · next a v hatom =>
        obtain ⟨text, ha, hreads⟩ := (scanAtom_eq_ok_iff hclosing).mp hatom
        refine .atom ha (hc.trans hreads) (fun htext => ?_) (scanAfterAtom_eq_ok_iff.mp h)
        obtain ⟨rfl, rfl⟩ := List.cons_eq_cons.mp htext
        obtain rfl := Reads.eq (Reads.refl t) hreads
        exact skip?_eq_none_iff.mp hnone
  · intro h
    cases h with
    | named hname h =>
      obtain ⟨v, hopening, hbehind⟩ := h.split_cons
      obtain ⟨w, hcolon, hclass⟩ := hbehind.split_cons
      obtain ⟨rfl, -⟩ := List.cons_eq_cons.mp (hc.rest.symm.trans hopening.rest)
      obtain rfl := hc.eq hopening
      unfold scanItem
      rw [if_pos rfl, skip?_eq_some_iff.mpr hcolon]
      dsimp only
      rw [scanNamed_eq_ok_iff.mpr ⟨_, _, _, hname, rfl, hclass⟩]
    | @atom text a v _ _ ha h hnamed hfollowed =>
      obtain ⟨d, ds, rfl, -⟩ := ha.exists_cons
      obtain ⟨w, hd, hds⟩ := h.split_cons
      obtain ⟨rfl, -⟩ := List.cons_eq_cons.mp (hc.rest.symm.trans hd.rest)
      obtain rfl := hc.eq hd
      rw [scanItem_atom ha hds hnamed]
      exact scanAfterAtom_eq_ok_iff.mpr hfollowed

/-- An item is read as it is spelled, if the character in front of which it is spelled comes
next. -/
theorem ItemSpelled.reads (h : ItemSpelled text t.rest.head? item) (hreads : s.Reads text t) :
    Item s [item] t := by
  cases h with
  | named hname => exact .named hname hreads
  | atom ha hnamed hrange => exact .atom ha hreads hnamed (.alone hrange)
  | range ha hb hle =>
    obtain ⟨u, hlow, hhigh⟩ := hreads.split
    refine .atom ha hlow (fun _ => ?_) (.range rfl hb hle hhigh)
    rw [hhigh.rest]
    simp

/-- What is read as an item is spelled as one in front of the others. -/
theorem Item.exists_spelled (h : Item s items t) (hmore : ItemsSpelled rest more)
    (hrest : t.Reads rest u) : ∃ text, ItemsSpelled text (items ++ more) ∧ s.Reads text u := by
  -- What the other items begin with comes next.
  have hhead := hrest.head? hmore.ne_nil
  cases h with
  | named hname h => exact ⟨_, .item (.named hname) hmore, h.trans hrest⟩
  | atom ha h hnamed hfollowed =>
    cases hfollowed with
    | alone hrange =>
      rw [hhead] at hnamed hrange
      exact ⟨_, .item (.atom ha hnamed hrange) hmore, h.trans hrest⟩
    | range heq hb hle hhigh =>
      subst heq
      exact ⟨_, .item (.range ha hb hle) hmore, (h.trans hhigh).trans hrest⟩
    | dash hdash hclosing =>
      have hclose : rest.head? = some ']' := by
        obtain ⟨c, cs, rfl⟩ := List.exists_cons_of_ne_nil hmore.ne_nil
        rw [hclosing c hhead]
        rfl
      obtain ⟨rfl, rfl⟩ := hmore.of_closing hclose
      exact ⟨_, .dash ha, h.trans (hdash.trans hrest)⟩

theorem scanItems_close (h : s.Reads [']'] t) (o : Nat) (read : List BracketItem) :
    scanItems o read s = .ok (read.reverse, t) := by
  rw [scanItems]
  split
  · next hnext => simp [next?_eq_some_iff.mpr h] at hnext
  · next c u hnext =>
    obtain ⟨rfl, rfl⟩ := Prod.mk.inj (Option.some.inj (hnext.symm.trans (next?_eq_some_iff.mpr h)))
    exact if_pos rfl

/-- Unless the bracket is closed, an item is taken in before the others. -/
theorem scanItems_eq_bind (hc : s.Reads [c] t) (hclosing : c ≠ ']') (o : Nat)
    (read : List BracketItem) : scanItems o read s =
      (scanItem s.offset c t).bind fun item => scanItems o (item.1.reverse ++ read) item.2 := by
  rw [scanItems]
  split
  · next hnext => simp [next?_eq_some_iff.mpr hc] at hnext
  · next d u hnext =>
    obtain ⟨rfl, rfl⟩ := Prod.mk.inj (Option.some.inj (hnext.symm.trans (next?_eq_some_iff.mpr hc)))
    rw [if_neg hclosing]
    split
    · next e hitem =>
      rw [hitem]
      rfl
    · next items v hitem =>
      rw [hitem, List.reverseAux_eq]
      rfl

theorem scanItems_item (h : Item s items t) (o : Nat) (read : List BracketItem) :
    scanItems o read s = scanItems o (items.reverse ++ read) t := by
  obtain ⟨c, u, hc, hclosing⟩ : ∃ c u, s.Reads [c] u ∧ c ≠ ']' := by
    cases h with
    | named _ h =>
      obtain ⟨u, hu, -⟩ := h.split_cons
      exact ⟨'[', u, hu, by decide⟩
    | atom ha h =>
      obtain ⟨d, ds, rfl, hd⟩ := ha.exists_cons
      obtain ⟨u, hu, -⟩ := h.split_cons
      exact ⟨d, u, hu, hd⟩
  rw [scanItems_eq_bind hc hclosing, (scanItem_eq_ok_iff hc hclosing).mpr h]
  rfl

/-- **The items of a bracket are read as they are spelled.** -/
theorem scanItems_eq_ok_iff {read : List BracketItem} : scanItems o read s = .ok (items, t) ↔
    ∃ text more, ItemsSpelled text more ∧ s.Reads text t ∧ items = read.reverse ++ more := by
  constructor
  · intro h
    fun_induction scanItems o read s with
    | case1 => simp at h
    | case2 read s u hs =>
      obtain ⟨rfl, rfl⟩ := Prod.mk.inj (Except.ok.inj h)
      exact ⟨_, [], .close, reads_of_next? hs, (List.append_nil _).symm⟩
    | case3 => simp at h
    | case4 read s c u hs hc items' v hitem ih =>
      obtain ⟨rest, more, hmore, hrest, rfl⟩ := ih h
      have hitem := (scanItem_eq_ok_iff (reads_of_next? hs) hc).mp hitem
      obtain ⟨text, htext, hreads⟩ := hitem.exists_spelled hmore hrest
      refine ⟨text, items' ++ more, htext, hreads, ?_⟩
      rw [List.reverseAux_eq, List.reverse_append, List.reverse_reverse, List.append_assoc]
  · rintro ⟨text, more, htext, hreads, rfl⟩
    -- One item is taken in, and then those that are read by the induction.
    induction htext generalizing s read with
    | close => rw [scanItems_close hreads, List.append_nil]
    | @item text rest item items h more ih =>
      obtain ⟨u, hitem, hrest⟩ := hreads.split
      rw [← hrest.head? more.ne_nil] at h
      rw [scanItems_item (h.reads hitem), ih hrest, List.reverse_append, List.reverse_reverse,
        List.append_assoc, List.singleton_append]
    | @dash text a ha =>
      obtain ⟨u, hatom, hdash⟩ := hreads.split
      obtain ⟨v, hdash, hclose⟩ := hdash.split_cons
      have hnamed : text = ['['] → u.rest.head? ≠ some ':' := by
        rw [hdash.rest]
        simp
      have hhead : ∀ c ∈ v.rest.head?, c = ']' := by
        rw [hclose.rest]
        simp
      have hitem : Item s [a.item, .char '-'] v :=
        .atom ha hatom hnamed (.dash hdash hhead)
      rw [scanItems_item hitem, scanItems_close hclose, List.reverse_append, List.reverse_reverse]

/-! ## The whole bracket -/

variable {negated closing : Bool}

/-- The marks in front of the items are read, and then the items. -/
theorem scan_eq (hcaret : s.Reads (mark negated '^') u) (hmark : u.Reads (mark closing ']') v)
    (hclosing : closing = false → v.rest.head? ≠ some ']')
    (hnegated : negated = false → closing = false → v.rest.head? ≠ some '^') (o : Nat) :
    scan o s = match scanItems o (if closing then [.char ']'] else []) v with
      | .error e => .error e
      | .ok (items, t) => .ok (.bracket negated items, t) := by
  have hnocaret : negated = false → u.rest.head? ≠ some '^' := by
    intro hpositive
    cases closing with
    | true =>
      rw [hmark.rest]
      simp [mark]
    | false =>
      obtain rfl := Reads.eq (Reads.refl u) hmark
      exact hnegated hpositive rfl
  cases hitems : scanItems o (if closing then [.char ']'] else []) v <;>
    simp only [scan, accept_eq hcaret hnocaret, accept_eq hmark hclosing, hitems]

/-- **A bracket is read as it is spelled.** -/
theorem scan_eq_ok_iff {token : Token} : scan o s = .ok (token, t) ↔ ∃ text negated items,
    Spelled ('[' :: text) negated items ∧ s.Reads text t ∧ token = .bracket negated items := by
  have hread : ∀ closing : Bool, (if closing then [BracketItem.char ']'] else []).reverse =
      (mark closing ']').map .char := by
    intro closing
    cases closing <;> rfl
  constructor
  · intro h
    unfold scan at h
    obtain ⟨hcaret, hnegated⟩ := reads_accept s '^'
    generalize s.accept '^' = p at h hcaret hnegated
    obtain ⟨negated, u⟩ := p
    obtain ⟨hmark, hclosing⟩ := reads_accept u ']'
    dsimp only at h hnegated hmark hclosing
    generalize u.accept ']' = p at h hmark hclosing
    obtain ⟨closing, v⟩ := p
    dsimp only at h hmark hclosing
    split at h
    · simp at h
    · next items w hitems =>
      obtain ⟨rfl, rfl⟩ := Prod.mk.inj (Except.ok.inj h)
      obtain ⟨text, more, htext, hreads, rfl⟩ := scanItems_eq_ok_iff.mp hitems
      rw [hread]
      refine ⟨_, negated, _, .bracket htext (fun habsent => ?_) (fun hpositive habsent => ?_),
        (hcaret.trans hmark).trans hreads, rfl⟩
      · rw [← hreads.head? htext.ne_nil]
        exact hclosing habsent
      · subst habsent
        obtain rfl := Reads.eq (Reads.refl u) hmark
        rw [← hreads.head? htext.ne_nil]
        exact hnegated hpositive
  · rintro ⟨text, negated, items, hspelled, hreads, rfl⟩
    cases hspelled with
    | @bracket text items negated closing htext hclosing hnegated =>
      obtain ⟨v, hmarks, hitems⟩ := hreads.split
      obtain ⟨u, hcaret, hmark⟩ := hmarks.split
      rw [← hitems.head? htext.ne_nil] at hclosing hnegated
      rw [scan_eq hcaret hmark hclosing hnegated,
        scanItems_eq_ok_iff.mpr ⟨text, items, htext, hitems, rfl⟩]
      dsimp only
      rw [hread]

/-! ## One lexeme -/

theorem next?_of_spelled (h : Spelled text negated items) (hreads : s.Reads text t) :
    Lexeme.next? s = some (⟨s.offset, .ok (.bracket negated items)⟩, t) := by
  obtain ⟨text, rfl⟩ : ∃ rest, text = '[' :: rest := by
    cases h
    exact ⟨_, rfl⟩
  obtain ⟨u, hopening, hbehind⟩ := hreads.split_cons
  have hscan : Token.scan s.offset '[' u = .ok (.bracket negated items, t) :=
    scan_eq_ok_iff.mpr ⟨text, negated, items, h, hbehind, rfl⟩
  unfold Lexeme.next?
  rw [next?_eq_some_iff.mpr hopening]
  dsimp only
  rw [hscan]

/-- **What an opening bracket begins is spelled as a bracket** if it is in order. -/
theorem exists_spelled_of_next? {token : Token} (hs : s.rest.head? = some '[')
    (h : Lexeme.next? s = some (⟨o, .ok token⟩, t)) : ∃ text negated items,
      Spelled text negated items ∧ s.Reads text t ∧ token = .bracket negated items := by
  unfold Lexeme.next? at h
  split at h
  · simp at h
  · next c u hu =>
    have hu := reads_of_next? hu
    rw [hu.rest] at hs
    obtain rfl : c = '[' := Option.some.inj hs
    split at h
    · simp at h
    · next token' v hscan =>
      obtain ⟨hlx, rfl⟩ := Prod.mk.inj (Option.some.inj h)
      injection hlx with _ htoken
      obtain rfl := Except.ok.inj htoken
      obtain ⟨text, negated, items, htext, hreads, rfl⟩ := scan_eq_ok_iff.mp hscan
      exact ⟨_, negated, items, htext, hu.trans hreads, rfl⟩

end LinearRegex.BracketItem
