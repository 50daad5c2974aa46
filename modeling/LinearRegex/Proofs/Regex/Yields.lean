import LinearRegex.Regex.Matches

/-!
# What calls give one after the other

Going through something is asking for the next item again and again. What the calls give is told by
a list: an item with each call as long as there are some, and then nothing, however often it is
asked again.

Main statements: `yields_nil_of_invariant` and `Yields.cons`, with which what is given is told step
by step, and `Yields.collect_eq` for collecting the items.
-/

namespace LinearRegex

variable {σ α : Type} {next : σ → Option α × σ} {s : σ} {x : α} {items : List α}

/-- The state after a number of calls. -/
def afterCalls (next : σ → Option α × σ) : Nat → σ → σ
  | 0, s => s
  | n + 1, s => afterCalls next n (next s).2

/-- From a state on, the calls give some items and then nothing for ever. -/
def Yields (next : σ → Option α × σ) (s : σ) (items : List α) : Prop :=
  ∀ k, (next (afterCalls next k s)).1 = items[k]?

theorem Yields.cons (h : (next s).1 = some x) (h' : Yields next (next s).2 items) :
    Yields next s (x :: items) := by
  intro k
  cases k with
  | zero => exact h
  | succ k => exact h' k

theorem Yields.head (h : Yields next s (x :: items)) : (next s).1 = some x := h 0

theorem Yields.nil (h : Yields next s []) : (next s).1 = none := h 0

theorem Yields.tail (h : Yields next s (x :: items)) : Yields next (next s).2 items :=
  fun k => h (k + 1)

/-- Nothing is given any more once a state is reached from which nothing is given and which leads
to such states only. -/
theorem yields_nil_of_invariant (done : σ → Prop)
    (hdone : ∀ s, done s → (next s).1 = none ∧ done (next s).2) (h : done s) :
    Yields next s [] := by
  have hafter : ∀ k s, done s → done (afterCalls next k s) := by
    intro k
    induction k with
    | zero => exact fun s h => h
    | succ k ih => exact fun s h => ih _ (hdone s h).2
  intro k
  exact (hdone _ (hafter k s h)).1

/-- What is given after a number of calls is what is left behind the items given so far. -/
theorem Yields.afterCalls (h : Yields next s items) (n : Nat) :
    Yields next (afterCalls next n s) (items.drop n) := by
  intro k
  have hadd : ∀ n s, LinearRegex.afterCalls next k (LinearRegex.afterCalls next n s) =
      LinearRegex.afterCalls next (n + k) s := by
    intro n
    induction n with
    | zero => intro s; rw [Nat.zero_add]; rfl
    | succ n ih => intro s; rw [Nat.add_right_comm]; exact ih _
  rw [hadd, h (n + k), List.getElem?_drop]

/-- **Collecting gives as many items as are asked for**, or all of them. -/
theorem Yields.collect_eq (h : Yields next s items) (n : Nat) (before : List α) :
    (collect next n s before).1 = before.reverse ++ items.take n := by
  induction n generalizing s items before with
  | zero => simp [collect]
  | succ n ih =>
    rw [collect]
    cases items with
    | nil =>
      have hnone : (next s).1 = none := h.nil
      split
      · simp
      · next heq => simp [heq] at hnone
    | cons x items =>
      have hsome : (next s).1 = some x := h.head
      split
      · next heq => simp [heq] at hsome
      · next y s' heq =>
        have hrest := h.tail
        rw [heq] at hsome hrest
        obtain rfl := Option.some.inj hsome
        rw [ih hrest, List.reverse_cons, List.append_assoc, List.take_succ_cons]
        rfl

/-- All items are collected if so many are asked for. -/
theorem Yields.collect_all (h : Yields next s items) {n : Nat} (hn : items.length ≤ n) :
    (collect next n s []).1 = items := by
  rw [h.collect_eq, List.take_of_length_le hn]
  rfl

end LinearRegex
