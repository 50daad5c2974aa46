import LinearRegex.Proofs.Pattern.Backtracking

/-!
# Backtracking without making a choice twice

A loop whose body can match the empty text could go round in one place for ever. A trail therefore
keeps account of the choices it has made since it took a character, and where it comes to one of
them again, it ends. There are two kinds of choices: to match a branch or one of those behind it,
and to go through an iteration of a loop or to leave the loop. In particular, an iteration without a
bound that takes no character leads back to a choice that has been made, and so comes to nothing;
but the same goes for the choices within its body.

Main statements: what every step keeps holds between the ends of all trails
(`Node.related_of_mem_trails`), so no trail goes back, and it keeps its choices until it takes a
character (`Node.keeps_of_mem_trails`); and the iterations of a loop without a bound follow the
plain rule, with a choice in front (`unbounded_eq`).
-/

namespace LinearRegex

/-- A way, with the choices made since it last took a character. -/
structure Trail extends Way where
  made : List Nat

namespace Trail

/-- The trail after its place has been recorded. -/
def record (t : Trail) (slot : Nat) : Trail := { t with toWay := t.toWay.record slot }

/-- The trail on over one character, behind which all choices can be made anew. -/
def take (accepts : Char → Bool) (t : Trail) : List Trail :=
  (t.toWay.take accepts).map fun w => ⟨w, []⟩

/-- The trail after a choice has been made. -/
def mark (t : Trail) (choice : Nat) : Trail := { t with made := choice :: t.made }

/-- The trails behind a choice. There are none if it has been made before. -/
def choose (choice : Nat) (options : Trail → List Trail) (t : Trail) : List Trail :=
  if choice ∈ t.made then [] else options (t.mark choice)

/-- The trails through a number of iterations, each of which has choices of its own: `size` of them,
numbered from `first` on. -/
def mandatory (size : Nat) (body : Nat → Trail → List Trail) : Nat → Nat → Trail → List Trail
  | 0, _, t => [t]
  | n + 1, first, t => (body first t).flatMap (mandatory size body n (first + size))

/-- The trails through at most a number of iterations. Each is chosen or not, and has choices of its
own behind that one. -/
def optional (greedy : Bool) (size : Nat) (body : Nat → Trail → List Trail) :
    Nat → Nat → Trail → List Trail
  | 0, _, t => [t]
  | n + 1, first, t =>
    t.choose first fun t =>
      let more := (body (first + 1) t).flatMap (optional greedy size body n (first + 1 + size))
      if greedy then more ++ [t] else t :: more

/-- The trails through less than a number of iterations, with one choice before all of them. -/
def repeated (greedy : Bool) (body : Trail → List Trail) (choice : Nat) : Nat → Trail → List Trail
  | 0, _ => []
  | n + 1, t =>
    t.choose choice fun t =>
      let more := (body t).flatMap (repeated greedy body choice n)
      if greedy then more ++ [t] else t :: more

/-- The trails through any number of iterations. As an iteration has to take a character for the
choice to be made again, there are no more of them than characters left. -/
def unbounded (greedy : Bool) (body : Trail → List Trail) (choice : Nat) (t : Trail) : List Trail :=
  repeated greedy body choice (t.cur.rest.length + 1) t

end Trail

namespace Node

mutual

/-- The number of choices in a piece. Iterations that are counted are written out, each with its own
choices; those without a bound share theirs. -/
def choices : Node → Nat
  | .empty => 0
  | .char _ _ => 0
  | .any => 0
  | .anyButNewline => 0
  | .bracket _ => 0
  | .assertion _ => 0
  | .cat nodes => choicesAll nodes
  | .alt branches => choicesAll branches + (branches.length - 1)
  | .loop body ⟨min, none, _⟩ => min * choices body + (1 + choices body)
  | .loop body ⟨min, some max, _⟩ => min * choices body + (max - min) * (1 + choices body)
  | .group body _ _ => choices body

/-- The number of choices in all pieces of a list. -/
def choicesAll : List Node → Nat
  | [] => 0
  | n :: ns => choices n + choicesAll ns

end

mutual

/-- The trails through a piece, in the order in which they are tried. Its choices are numbered in
the order in which they are written, from `first` on. -/
def trails : Node → Nat → Trail → List Trail
  | .empty, _, t => [t]
  | .char c ignoreCase, _, t =>
    t.take fun d => if ignoreCase then CaseFold.fold d == c else d == c
  | .any, _, t => t.take fun _ => true
  | .anyButNewline, _, t => t.take fun d => d != '\n'
  | .bracket b, _, t => t.take b.accepts
  | .assertion a, _, t => if a.holds t.cur then [t] else []
  | .cat nodes, first, t => trailsAll nodes first t
  | .alt branches, first, t => trailsSome branches first t
  | .loop body ⟨min, none, greedy⟩, first, t =>
    let head := first + min * body.choices
    (Trail.mandatory body.choices (trails body) min first t).flatMap
      (Trail.unbounded greedy (trails body (head + 1)) head)
  | .loop body ⟨min, some max, greedy⟩, first, t =>
    let head := first + min * body.choices
    (Trail.mandatory body.choices (trails body) min first t).flatMap
      (Trail.optional greedy body.choices (trails body) (max - min) head)
  | .group body index _, first, t =>
    (trails body first (t.record (2 * index))).map (·.record (2 * index + 1))

/-- The trails through pieces one after the other. -/
def trailsAll : List Node → Nat → Trail → List Trail
  | [], _, t => [t]
  | n :: ns, first, t => (trails n first t).flatMap (trailsAll ns (first + n.choices))

/-- The trails through one of several branches. Each but the last is chosen or not. -/
def trailsSome : List Node → Nat → Trail → List Trail
  | [], _, _ => []
  | n :: ns, first, t =>
    match ns with
    | [] => trails n first t
    | _ :: _ =>
      t.choose first fun t =>
        trails n (first + 1) t ++ trailsSome ns (first + 1 + n.choices) t

end

end Node

/-- What a backtracking matcher that makes no choice twice makes of a pattern at a place: the slots
of the first trail there is, with the whole match as group 0. -/
def Pattern.firstTrail (pattern : Pattern) (width : Nat) (cur : Cursor) : Option Slots :=
  ((Node.group pattern.node 0 none).trails 0 ⟨⟨cur, .replicate width none⟩, []⟩).head?.map
    fun t => t.slots

/-! ## What every step keeps -/

namespace Trail

variable {R : Trail → Trail → Prop} {t u v : Trail} {options body : Trail → List Trail}
variable {bodies : Nat → Trail → List Trail} {choice first size n : Nat} {greedy : Bool}

/-- A relation between two places of a trail that goes on holding with every step the trail takes.
It then holds between the ends of all trails through a piece. -/
structure Closed (R : Trail → Trail → Prop) : Prop where
  refl : ∀ t, R t t
  trans : ∀ {t u v}, R t u → R u v → R t v
  take : ∀ {accepts t v}, v ∈ t.take accepts → R t v
  mark : ∀ t choice, R t (t.mark choice)
  group : ∀ {index t v}, R (t.record (2 * index)) v → R t (v.record (2 * index + 1))

namespace Closed

variable (hR : Closed R)
include hR

theorem of_mem_choose (hoptions : ∀ t, ∀ v ∈ options t, R t v)
    (h : v ∈ t.choose choice options) : R t v := by
  unfold choose at h
  split at h
  · simp at h
  · exact hR.trans (hR.mark t choice) (hoptions _ v h)

/-- What a loop comes to, body first or exit first: behind further iterations, or at its exit. -/
theorem of_mem_body_or_exit {more : List Trail} (hmore : ∀ v ∈ more, R t v)
    (h : v ∈ if greedy then more ++ [t] else t :: more) : R t v := by
  have hcases : v ∈ more ∨ v = t := by
    cases greedy with
    | true => simpa using h
    | false => simpa [or_comm] using h
  rcases hcases with h | rfl
  · exact hmore v h
  · exact hR.refl v

theorem of_mem_mandatory (hbody : ∀ k t, ∀ v ∈ bodies k t, R t v)
    (h : v ∈ mandatory size bodies n first t) : R t v := by
  induction n generalizing first t with
  | zero =>
    rw [mandatory, List.mem_singleton] at h
    exact h ▸ hR.refl t
  | succ n ih =>
    rw [mandatory, List.mem_flatMap] at h
    obtain ⟨u, hu, h⟩ := h
    exact hR.trans (hbody _ t u hu) (ih h)

theorem of_mem_optional (hbody : ∀ k t, ∀ v ∈ bodies k t, R t v)
    (h : v ∈ optional greedy size bodies n first t) : R t v := by
  induction n generalizing first t v with
  | zero =>
    rw [optional, List.mem_singleton] at h
    exact h ▸ hR.refl t
  | succ n ih =>
    refine hR.of_mem_choose (fun t v h => hR.of_mem_body_or_exit ?_ h) h
    intro v hv
    obtain ⟨u, hu, hv⟩ := List.mem_flatMap.mp hv
    exact hR.trans (hbody _ t u hu) (ih hv)

theorem of_mem_repeated (hbody : ∀ t, ∀ v ∈ body t, R t v)
    (h : v ∈ repeated greedy body choice n t) : R t v := by
  induction n generalizing t v with
  | zero => simp [repeated] at h
  | succ n ih =>
    refine hR.of_mem_choose (fun t v h => hR.of_mem_body_or_exit ?_ h) h
    intro v hv
    obtain ⟨u, hu, hv⟩ := List.mem_flatMap.mp hv
    exact hR.trans (hbody t u hu) (ih hv)

end Closed

end Trail

namespace Node

variable {R : Trail → Trail → Prop} (hR : Trail.Closed R)
include hR

mutual

/-- **What every step keeps holds between the ends of all trails.** -/
theorem related_of_mem_trails : ∀ {n : Node} {first : Nat} {t v : Trail}, v ∈ n.trails first t →
    R t v
  | .empty, _, t, _, h => by
    rw [trails, List.mem_singleton] at h
    exact h ▸ hR.refl t
  | .char _ _, _, _, _, h => by
    rw [trails] at h
    exact hR.take h
  | .any, _, _, _, h => by
    rw [trails] at h
    exact hR.take h
  | .anyButNewline, _, _, _, h => by
    rw [trails] at h
    exact hR.take h
  | .bracket _, _, _, _, h => by
    rw [trails] at h
    exact hR.take h
  | .assertion _, _, t, _, h => by
    rw [trails] at h
    split at h
    · rw [List.mem_singleton] at h
      exact h ▸ hR.refl t
    · simp at h
  | .cat _, _, _, _, h => by
    rw [trails] at h
    exact related_of_mem_trailsAll h
  | .alt _, _, _, _, h => by
    rw [trails] at h
    exact related_of_mem_trailsSome h
  | .loop _ ⟨_, none, _⟩, _, _, _, h => by
    rw [trails, List.mem_flatMap] at h
    obtain ⟨u, hu, h⟩ := h
    exact hR.trans (hR.of_mem_mandatory (fun _ _ _ h => related_of_mem_trails h) hu)
      (hR.of_mem_repeated (fun _ _ h => related_of_mem_trails h) h)
  | .loop _ ⟨_, some _, _⟩, _, _, _, h => by
    rw [trails, List.mem_flatMap] at h
    obtain ⟨u, hu, h⟩ := h
    exact hR.trans (hR.of_mem_mandatory (fun _ _ _ h => related_of_mem_trails h) hu)
      (hR.of_mem_optional (fun _ _ _ h => related_of_mem_trails h) h)
  | .group _ _ _, _, _, _, h => by
    rw [trails] at h
    obtain ⟨u, hu, rfl⟩ := List.mem_map.mp h
    exact hR.group (related_of_mem_trails hu)

theorem related_of_mem_trailsAll : ∀ {ns : List Node} {first : Nat} {t v : Trail},
    v ∈ trailsAll ns first t → R t v
  | [], _, t, _, h => by
    rw [trailsAll, List.mem_singleton] at h
    exact h ▸ hR.refl t
  | _ :: _, _, _, _, h => by
    rw [trailsAll, List.mem_flatMap] at h
    obtain ⟨u, hu, h⟩ := h
    exact hR.trans (related_of_mem_trails hu) (related_of_mem_trailsAll h)

theorem related_of_mem_trailsSome : ∀ {ns : List Node} {first : Nat} {t v : Trail},
    v ∈ trailsSome ns first t → R t v
  | [], _, _, _, h => by
    rw [trailsSome] at h
    simp at h
  | [_], _, _, _, h => by
    rw [trailsSome] at h
    exact related_of_mem_trails h
  | _ :: _ :: _, _, _, _, h => by
    rw [trailsSome] at h
    refine hR.of_mem_choose (fun t v h => ?_) h
    rcases List.mem_append.mp h with h | h
    · exact related_of_mem_trails h
    · exact related_of_mem_trailsSome h

end

end Node

/-! ## Choices are kept until a character is taken -/

namespace Trail

variable {t u v : Trail} {accepts : Char → Bool}

/-- A trail has taken characters from one place to another, or has kept its place and the choices
made there. -/
def Keeps (t v : Trail) : Prop :=
  v.cur.rest.length < t.cur.rest.length ∨ (v.cur = t.cur ∧ t.made ⊆ v.made)

theorem Keeps.trans (h : t.Keeps u) (h' : u.Keeps v) : t.Keeps v := by
  rcases h with h | ⟨h, hmade⟩
  · rcases h' with h' | ⟨h', -⟩
    · exact Or.inl (Nat.lt_trans h' h)
    · exact Or.inl (h'.symm ▸ h)
  · rcases h' with h' | ⟨h', hmade'⟩
    · exact Or.inl (h ▸ h')
    · exact Or.inr ⟨h'.trans h, fun _ hk => hmade' (hmade hk)⟩

theorem takes_of_mem_take (h : v ∈ t.take accepts) : t.cur.Takes accepts v.cur := by
  obtain ⟨w, hw, rfl⟩ := List.mem_map.mp h
  exact Way.takes_of_mem_take hw

theorem closed_keeps : Closed Keeps where
  refl _ := Or.inr ⟨rfl, fun _ h => h⟩
  trans := Keeps.trans
  take h := Or.inl (takes_of_mem_take h).rest_lt
  mark _ _ := Or.inr ⟨rfl, fun _ h => List.mem_cons_of_mem _ h⟩
  group h := h

end Trail

/-- **No trail goes back, and it keeps its choices until it takes a character.** -/
theorem Node.keeps_of_mem_trails {n : Node} {first : Nat} {t v : Trail} (h : v ∈ n.trails first t) :
    t.Keeps v :=
  related_of_mem_trails Trail.closed_keeps h

/-! ## Loops without a bound -/

namespace Trail

variable {t : Trail} {body : Trail → List Trail} {greedy : Bool} {choice : Nat}

theorem repeated_of_mem (h : choice ∈ t.made) (n : Nat) : repeated greedy body choice n t = [] := by
  cases n with
  | zero => rfl
  | succ n =>
    rw [repeated, choose, if_pos h]

/-- More iterations than there are characters left make no difference. -/
theorem repeated_congr (hbody : ∀ t, ∀ v ∈ body t, t.Keeps v) {m n : Nat}
    (hm : t.cur.rest.length < m) (hn : t.cur.rest.length < n) :
    repeated greedy body choice m t = repeated greedy body choice n t := by
  induction m generalizing n t with
  | zero => exact absurd hm (Nat.not_lt_zero _)
  | succ m ih =>
    obtain ⟨n, rfl⟩ := Nat.exists_eq_succ_of_ne_zero (Nat.ne_zero_of_lt hn)
    rw [repeated, repeated, choose, choose]
    split
    · rfl
    · next hmade =>
      -- An iteration takes a character or leads back to the choice just made.
      have hmore : ∀ v ∈ body (t.mark choice),
          repeated greedy body choice m v = repeated greedy body choice n v := by
        intro v hv
        rcases hbody _ v hv with hlt | ⟨-, hsub⟩
        · have hlt : v.cur.rest.length < t.cur.rest.length := hlt
          exact ih (by omega) (by omega)
        · have hmem := hsub List.mem_cons_self
          rw [repeated_of_mem hmem, repeated_of_mem hmem]
      rw [List.flatMap_congr hmore]

/-- An iteration that leads back to a choice that has been made comes to nothing. -/
theorem unbounded_of_mem (h : choice ∈ t.made) : unbounded greedy body choice t = [] :=
  repeated_of_mem h _

/-- **The plain rule.** Where the choice is new, a greedy loop goes through its body and then tries
the same again, before it tries the exit; another one does so after it. -/
theorem unbounded_eq (hbody : ∀ t, ∀ v ∈ body t, t.Keeps v) (t : Trail) :
    unbounded greedy body choice t =
      t.choose choice fun t =>
        if greedy then (body t).flatMap (unbounded greedy body choice) ++ [t]
        else t :: (body t).flatMap (unbounded greedy body choice) := by
  rw [unbounded, repeated, choose, choose]
  split
  · rfl
  · have hmore : ∀ v ∈ body (t.mark choice),
        repeated greedy body choice t.cur.rest.length v = unbounded greedy body choice v := by
      intro v hv
      rcases hbody _ v hv with hlt | ⟨-, hsub⟩
      · exact repeated_congr hbody hlt (Nat.lt_succ_self _)
      · have hmem := hsub List.mem_cons_self
        rw [repeated_of_mem hmem, unbounded_of_mem hmem]
    rw [List.flatMap_congr hmore]

end Trail

end LinearRegex
