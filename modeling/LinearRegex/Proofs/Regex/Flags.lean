import LinearRegex.Proofs.Pattern.Surrounded
import LinearRegex.Proofs.Regex.Width

/-!
# How far changes of flags reach

Flags that are changed within a group are put back where the group closes, whether the group itself
changes them or a flag group in it does. A flag group outside of all groups changes them up to the
end of the pattern, and the flags at the end are those that a pattern and the expression compiled
from it tell. So these are the flags at the start just as long as nothing changes them outside of
groups.

Main statement: `Regex.flags_of_parse`.
-/

namespace LinearRegex

namespace Pattern

/-! ## Changes outside of groups -/

/-- The changes of flags that a lexeme makes outside of all groups, if so many are open. -/
def outerChangesOf (depth : Nat) (lx : Lexeme) : List FlagChange :=
  match depth, lx.token with
  | 0, .ok (.opening (.ok (.flags changes))) => changes
  | _, _ => []

/-- The changes of flags that lexemes make outside of all groups, inside of so many open ones. -/
def outerChanges : Nat → List Lexeme → List FlagChange
  | _, [] => []
  | depth, lx :: lxs => outerChangesOf depth lx ++ outerChanges (depthBehind depth lx) lxs

theorem outerChangesOf_eq_nil {lx : Lexeme} (depth : Nat)
    (h : ∀ changes, lx.token ≠ .ok (.opening (.ok (.flags changes)))) :
    outerChangesOf depth lx = [] := by
  unfold outerChangesOf
  split
  · next changes htoken => exact absurd htoken (h changes)
  · rfl

/-- The flags in force when some groups are closed, by those in force within them. -/
def flagsOutside (flags : Flags) : List OpenGroup → Flags
  | [] => flags
  | g :: groups => flagsOutside g.flags groups

namespace Reader

variable {r r' : Reader} {lx : Lexeme} {lxs : List Lexeme} {o : Nat}

/-- The flags in force when all groups are closed. -/
def outerFlags (r : Reader) : Flags := flagsOutside r.flags r.groups

theorem outerFlags_opening {head : GroupHead} (h : r.opening o head = .ok r') :
    r'.outerFlags = r.outerFlags.change
      (outerChangesOf r.groups.length ⟨o, .ok (.opening (.ok head))⟩) := by
  cases opened_of_opening h with
  | changed hhead h =>
    subst h
    subst hhead
    -- Within a group, what is changed is not what the group returns to.
    unfold outerFlags
    cases r.groups <;> rfl
  | grouped hhead h =>
    rw [h, outerChangesOf_eq_nil]
    · rfl
    · rcases hhead with ⟨rfl, -⟩ | ⟨changes, rfl, -⟩ <;> simp
  | captured hhead _ h =>
    rw [h, outerChangesOf_eq_nil]
    · rfl
    · rcases hhead with ⟨rfl, -⟩ | ⟨s, offset, rfl, -⟩ <;> simp

theorem outerFlags_closing (h : r.closing o = .ok r') : r'.outerFlags = r.outerFlags := by
  obtain ⟨body, g, groups, -, hgroups, rfl⟩ := closing_eq_ok h
  unfold outerFlags
  rw [hgroups]
  rfl

/-- **A lexeme changes the flags outside of groups only if it stands there.** -/
theorem outerFlags_step (h : r.step lx = .ok r') :
    r'.outerFlags = r.outerFlags.change (outerChangesOf r.groups.length lx) := by
  cases stepped_of_step h with
  | piece htoken hn hr =>
    rw [hr, outerChangesOf_eq_nil]
    · rfl
    · intro changes hflags
      obtain rfl := Except.ok.inj (htoken.symm.trans hflags)
      simp [pieceOf?] at hn
  | opened htoken _ hr =>
    obtain ⟨o, token⟩ := lx
    obtain rfl : token = _ := htoken
    exact outerFlags_opening hr
  | closed htoken hr =>
    rw [outerFlags_closing hr, outerChangesOf_eq_nil _ (by simp [htoken])]
    rfl
  | repeated htoken _ hr =>
    rw [hr, outerChangesOf_eq_nil _ (by simp [htoken])]
    rfl
  | barred htoken hr =>
    rw [hr, outerChangesOf_eq_nil _ (by simp [htoken])]
    rfl

theorem outerFlags_foldlM (h : lxs.foldlM step r = .ok r') :
    r'.outerFlags = r.outerFlags.change (outerChanges r.groups.length lxs) := by
  induction lxs generalizing r with
  | nil =>
    obtain rfl := Except.ok.inj h
    rfl
  | cons lx lxs ih =>
    obtain ⟨r₁, h₁, h⟩ := exists_step_of_foldlM h
    obtain ⟨hdepth, -⟩ := step_counts h₁
    rw [ih h, outerFlags_step h₁, hdepth, outerChanges, Flags.change_append]

end Reader

/-- The flags that a pattern tells. -/
theorem flags_eq_of_parse {source : String} {flags : Flags} {pattern : Pattern}
    (h : parse source flags = .ok pattern) :
    pattern.flags = flags.change (outerChanges 0 (Lexeme.all (.ofString source))) := by
  obtain ⟨r, hr, hfinish⟩ := exists_finish_of_parse h
  obtain ⟨-, hgroups, hpattern⟩ := Reader.finish_eq_ok hfinish
  have houter := Reader.outerFlags_foldlM hr
  rw [hpattern]
  unfold Reader.outerFlags at houter
  rw [hgroups] at houter
  exact houter

end Pattern

/-! ## Expressions -/

theorem Program.compile_flags {limit : Nat} {pattern : Pattern} {p : Program}
    (h : compile limit pattern = .ok p) : p.flags = pattern.flags := by
  obtain ⟨_, -, h⟩ := bind_eq_ok h
  obtain ⟨_, -, h⟩ := bind_eq_ok h
  obtain ⟨_, -, h⟩ := bind_eq_ok h
  obtain ⟨_, -, h⟩ := bind_eq_ok h
  unfold checkSlots at h
  dsimp only at h
  split at h
  · simp at h
  · obtain rfl := Except.ok.inj h
    rfl

namespace Regex

/-- **The flags that a pattern tells** are those at the start with the changes made outside of
groups. Changes within groups, at any depth, have no effect on them. An expression tells the same
flags as its pattern. -/
theorem flags_of_parse {source : String} {flags : Flags} {pattern : Pattern}
    (h : Pattern.parse source flags = .ok pattern) :
    pattern.flags =
        flags.change (Pattern.outerChanges 0 (Lexeme.all (.ofString source))) ∧
      ∀ sizeLimit re, build source { flags, sizeLimit } = .ok re → re.flags = pattern.flags := by
  refine ⟨Pattern.flags_eq_of_parse h, fun sizeLimit re hre => ?_⟩
  obtain ⟨tree, hparse, hcompile⟩ := exists_parse_of_build hre
  obtain rfl := Except.ok.inj (h.symm.trans hparse)
  exact Program.compile_flags hcompile

theorem flags_of_parse_nested : ∃ pattern,
    Pattern.parse "((?s)a(?i:b))(?m-u)c" { unicode := true } = .ok pattern ∧
      pattern.flags = { multiLine := true } ∧
      ∀ sizeLimit re,
        build "((?s)a(?i:b))(?m-u)c" { flags := { unicode := true }, sizeLimit } = .ok re →
          re.flags = { multiLine := true } := by
  obtain ⟨pattern, hparse⟩ : ∃ pattern,
      Pattern.parse "((?s)a(?i:b))(?m-u)c" { unicode := true } = .ok pattern := by
    with_unfolding_all exact ⟨_, rfl⟩
  obtain ⟨hflags, hre⟩ := flags_of_parse hparse
  have houter : pattern.flags = { multiLine := true } := hflags.trans (by decide +kernel)
  exact ⟨pattern, hparse, houter, fun sizeLimit re h => (hre sizeLimit re h).trans houter⟩

/-- A flag group outside of all groups changes what a pattern and its expression tell. -/
theorem exists_flags_ne : ∃ source flags pattern re,
    Pattern.parse source flags = .ok pattern ∧ build source { flags } = .ok re ∧
      pattern.flags ≠ flags ∧ re.flags ≠ flags := by
  refine ⟨"(?m)^", {}, ?_⟩
  with_unfolding_all exact ⟨_, _, rfl, rfl, by decide, by decide⟩

end Regex

end LinearRegex
