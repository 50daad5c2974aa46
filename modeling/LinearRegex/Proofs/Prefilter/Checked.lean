import LinearRegex.Proofs.Prefilter.Landing

/-!
# Prefilters with every access checked

What is known of the beginning of a piece once more, where the first byte of a list is only taken
if there is one; else there is no result. There always is a result, because what is known never is
an empty list of bytes.

Main statement: `prefilter_eq`.
-/

namespace LinearRegex.Beginning.Checked

/-! ## Definitions -/

/-- The first byte of a list as a set. There must be one. -/
def firstOf : List UInt8 → Option ByteSet
  | [] => none
  | b :: _ => some (.ofList [b])

/-- What is known of matches that begin in one of two ways. -/
def join : Beginning → Beginning → Option Beginning
  | .anything, _ => some .anything
  | _, .anything => some .anything
  | .bytes as, .bytes bs =>
    match sharedStart as bs with
    | [] => do
      let s ← firstOf as
      let t ← firstOf bs
      return .oneOf (s.union t)
    | shared => some (.bytes shared)
  | .oneOf s, .oneOf t => some (.oneOf (s.union t))
  | .oneOf s, .bytes bs => do
    let t ← firstOf bs
    return .oneOf (s.union t)
  | .bytes bs, .oneOf s => do
    let t ← firstOf bs
    return .oneOf (s.union t)

mutual

/-- How the matches of a piece begin, or nothing if it takes no character. -/
def ofNode? : Node → Option (Option Beginning)
  | .empty => some (some .anything)
  | .char c false => some (some (.bytes (String.utf8EncodeChar c)))
  | .char _ true => some (some .anything)
  | .any => some (some .anything)
  | .anyButNewline => some (some .anything)
  | .assertion _ => some none
  | .bracket b => some (some (ofBracket b))
  | .cat nodes =>
    match literalRun nodes with
    | [] => ofFirst? nodes
    | run => some (some (.bytes run))
  | .alt branches => do
    let b ← ofBranches none branches
    return some b
  | .loop body q => if 0 < q.min then ofNode? body else some (some .anything)
  | .group body _ _ => ofNode? body

/-- How the matches of the first piece in a row begin that may take a character. -/
def ofFirst? : List Node → Option (Option Beginning)
  | [] => some none
  | n :: ns => if n.isZeroWidth then ofFirst? ns else ofNode? n

/-- How the matches of branches begin, joined to what is known of the branches before. -/
def ofBranches (known : Option Beginning) : List Node → Option Beginning
  | [] => some (known.getD .anything)
  | n :: ns => do
    match ← ofNode? n with
    | none => some .anything
    | some b =>
      match known with
      | none => ofBranches (some b) ns
      | some a =>
        let joined ← join a b
        ofBranches (some joined) ns

end

/-- The prefilter of a tree. -/
def prefilter (n : Node) : Option Prefilter :=
  if n.beginsAtTextStart then some .textStart
  else if n.canMatchEmpty then some .anywhere
  else do
    let b ← ofNode? n
    return (b.getD .anything).prefilter

/-! ## There is a result -/

theorem firstOf_eq {bs : List UInt8} (h : (Beginning.bytes bs).Leading) :
    firstOf bs = some (Beginning.firstOf bs) := by
  obtain ⟨b, rest, rfl, -⟩ := h
  rfl

theorem join_eq {a b : Beginning} (ha : a.Leading) (hb : b.Leading) :
    join a b = some (a.join b) := by
  cases a with
  | anything => rfl
  | bytes as =>
    cases b with
    | anything => rfl
    | bytes bs =>
      rw [join, Beginning.join, firstOf_eq ha, firstOf_eq hb]
      cases sharedStart as bs with
      | nil => rfl
      | cons b shared => rfl
    | oneOf t =>
      rw [join, firstOf_eq ha]
      rfl
  | oneOf s =>
    cases b with
    | anything => rfl
    | bytes bs =>
      rw [join, firstOf_eq hb]
      rfl
    | oneOf t => rfl

mutual

/-- **What is known of a piece is found without looking at the first byte of an empty list.** -/
theorem ofNode?_eq : ∀ n : Node, ofNode? n = some (Beginning.ofNode? n)
  | .empty => by rw [ofNode?, Beginning.ofNode?]
  | .char _ false => by rw [ofNode?, Beginning.ofNode?]
  | .char _ true => by rw [ofNode?, Beginning.ofNode?]
  | .any => by rw [ofNode?, Beginning.ofNode?]
  | .anyButNewline => by rw [ofNode?, Beginning.ofNode?]
  | .assertion _ => by rw [ofNode?, Beginning.ofNode?]
  | .bracket _ => by rw [ofNode?, Beginning.ofNode?]
  | .cat nodes => by
    rw [ofNode?, Beginning.ofNode?]
    cases literalRun nodes with
    | nil => exact ofFirst?_eq nodes
    | cons b run => rfl
  | .alt branches => by
    rw [ofNode?, Beginning.ofNode?, ofBranches_eq branches none (by simp)]
    rfl
  | .loop body q => by
    rw [ofNode?, Beginning.ofNode?]
    split
    · exact ofNode?_eq body
    · rfl
  | .group body _ _ => by
    rw [ofNode?, Beginning.ofNode?]
    exact ofNode?_eq body

theorem ofFirst?_eq : ∀ ns : List Node, ofFirst? ns = some (Beginning.ofFirst? ns)
  | [] => by rw [ofFirst?, Beginning.ofFirst?]
  | n :: ns => by
    rw [ofFirst?, Beginning.ofFirst?]
    split
    · exact ofFirst?_eq ns
    · exact ofNode?_eq n

theorem ofBranches_eq : ∀ (ns : List Node) (known : Option Beginning),
    (∀ a, known = some a → a.Leading) →
    ofBranches known ns = some (Beginning.ofBranches known ns)
  | [], _, _ => by rw [ofBranches, Beginning.ofBranches]
  | n :: ns, known, hknown => by
    rw [ofBranches, Beginning.ofBranches, ofNode?_eq n, Option.bind_eq_bind, Option.bind_some]
    cases hb : Beginning.ofNode? n with
    | none => rfl
    | some b =>
      have hlead := leading_ofNode hb
      cases known with
      | none => exact ofBranches_eq ns (some b) fun a ha => Option.some.inj ha ▸ hlead
      | some a =>
        have ha := hknown a rfl
        simp only [join_eq ha hlead]
        refine ofBranches_eq ns _ fun x hx => ?_
        obtain rfl := Option.some.inj hx
        exact ha.join hlead

end

theorem prefilter_eq (n : Node) : prefilter n = some n.prefilter := by
  rw [prefilter, Node.prefilter, ofNode?_eq]
  split
  · rfl
  · split <;> rfl

end LinearRegex.Beginning.Checked
