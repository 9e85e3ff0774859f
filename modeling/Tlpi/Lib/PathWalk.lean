import Mathlib.Data.List.Basic

/-!
# Walking a path without symbolic links

A directory is the list of the names that lead to it from the root. A walk goes through the
components of a path; every name must be a directory that exists, and the parent of the root is the
root.
-/

namespace Tlpi

inductive Comp (α : Type*)
  | self
  | parent
  | name (n : α)
  deriving DecidableEq, Repr

namespace Comp

variable {α : Type*} {dirs : List α → Bool}

def walk (dirs : List α → Bool) : List α → List (Comp α) → Option (List α)
  | cwd, [] => some cwd
  | cwd, self :: cs => walk dirs cwd cs
  | cwd, parent :: cs => walk dirs cwd.dropLast cs
  | cwd, name n :: cs => if dirs (cwd ++ [n]) then walk dirs (cwd ++ [n]) cs else none

/-- The directory that `mkdir` creates for an absolute path: the last component must be a name that
does not exist yet. -/
def mkdir (dirs : List α → Bool) (cs : List (Comp α)) : Option (List α) :=
  match cs.getLast? with
  | some (name n) =>
    match walk dirs [] cs.dropLast with
    | some d => if dirs (d ++ [n]) then none else some (d ++ [n])
    | none => none
  | _ => none

/-- A walk that starts `k` levels below a directory does not leave that directory: no initial part
of the components has more than `k` parents beyond its names. -/
def StaysBelow : Nat → List (Comp α) → Prop
  | _, [] => True
  | k, self :: cs => StaysBelow k cs
  | 0, parent :: _ => False
  | k + 1, parent :: cs => StaysBelow k cs
  | k, name _ :: cs => StaysBelow (k + 1) cs

instance decidableStaysBelow : (k : Nat) → (cs : List (Comp α)) → Decidable (StaysBelow k cs)
  | _, [] => inferInstanceAs (Decidable True)
  | k, self :: cs => decidableStaysBelow k cs
  | 0, parent :: _ => inferInstanceAs (Decidable False)
  | k + 1, parent :: cs => decidableStaysBelow k cs
  | k, name _ :: cs => decidableStaysBelow (k + 1) cs

theorem StaysBelow.dropLast {k : Nat} {cs : List (Comp α)} (h : StaysBelow k cs) :
    StaysBelow k cs.dropLast := by
  fun_induction StaysBelow k cs with
  | case1 => trivial
  | case2 k cs ih =>
    cases cs with
    | nil => trivial
    | cons c cs => exact ih h
  | case3 => exact h.elim
  | case4 k cs ih =>
    cases cs with
    | nil => trivial
    | cons c cs => exact ih h
  | case5 k n cs ih =>
    cases cs with
    | nil => trivial
    | cons c cs => exact ih h

theorem walk_below (base cwd : List α) {d : List α} {cs : List (Comp α)} (h : StaysBelow cwd.length cs)
    (hw : walk dirs (base ++ cwd) cs = some d) : base <+: d := by
  induction cs generalizing cwd with
  | nil =>
    cases hw
    exact List.prefix_append ..
  | cons c cs ih =>
    cases c with
    | self => exact ih cwd h hw
    | parent =>
      rcases List.eq_nil_or_concat cwd with rfl | ⟨cwd, n, rfl⟩
      · exact h.elim
      · rw [List.concat_eq_append] at h hw
        rw [List.length_append] at h
        rw [walk, ← List.append_assoc, List.dropLast_concat] at hw
        exact ih cwd h hw
    | name n =>
      rw [walk] at hw
      split at hw
      · rw [List.append_assoc] at hw
        refine ih (cwd ++ [n]) ?_ hw
        rw [List.length_append]
        exact h
      · cases hw

/-- A path that stays below its first name creates a directory in it. -/
theorem mkdir_below {n : α} {cs : List (Comp α)} {d : List α} (h : StaysBelow 0 cs)
    (hne : cs = [] → dirs [n] = true) (hm : mkdir dirs (name n :: cs) = some d) :
    [n] <+: d ∧ d ≠ [n] := by
  cases cs with
  | nil =>
    simp only [mkdir, List.getLast?_singleton, List.dropLast_singleton, walk, List.nil_append,
      hne rfl] at hm
    cases hm
  | cons c cs =>
    rw [mkdir] at hm
    split at hm
    · rename_i m _
      rw [List.dropLast_cons_cons, walk, List.nil_append] at hm
      split at hm
      · rename_i d' hw
        split at hw
        · split at hm
          · cases hm
          · cases hm
            have hbelow : [n] <+: d' := walk_below [n] [] h.dropLast hw
            refine ⟨hbelow.trans (List.prefix_append ..), fun heq => ?_⟩
            have hlen := congrArg List.length heq
            have := hbelow.length_le
            simp only [List.length_append, List.length_singleton] at hlen this
            omega
        · cases hw
      · cases hm
    · cases hm

end Comp

end Tlpi
