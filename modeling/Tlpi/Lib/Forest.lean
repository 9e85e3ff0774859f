import Mathlib.Data.List.Nodup
import Mathlib.Data.List.Perm.Basic
import Mathlib.Logic.Relation
import Mathlib.Order.WellFounded

/-!
# Forests

A forest by the list of children of each node. Its walk visits a node before its children and counts
the levels; every node below the starting point is visited once, at its own depth.
-/

namespace Tlpi

open Relation

variable {κ : Type*}

structure Forest (κ : Type*) where
  children : κ → List κ
  nodup : ∀ q, (children q).Nodup
  unique : ∀ c q q', c ∈ children q → c ∈ children q' → q = q'
  wf : WellFounded fun c q => c ∈ children q

namespace Forest

variable (F : Forest κ) (shown : κ → Bool)

/-- `c` is a child of `q`. -/
def Child (c q : κ) : Prop := c ∈ F.children q

/-- `m` is `d` levels below `q`. -/
inductive Below : Nat → κ → κ → Prop
  | refl (q : κ) : Below 0 q q
  | step {d : Nat} {m c q : κ} : F.Child c q → Below d m c → Below (d + 1) m q

/-- The nodes that are to be shown, each with its level. -/
def walk (q : κ) (level : Nat) : List (κ × Nat) :=
  (if shown q then [(q, level)] else []) ++
    (F.children q).attach.flatMap fun c => walk c.1 (level + 1)
termination_by F.wf.wrap q
decreasing_by exact c.2

variable {F shown} {c c' m q q' : κ} {d : Nat}

theorem walk_eq (q : κ) (level : Nat) :
    F.walk shown q level = (if shown q then [(q, level)] else []) ++
      (F.children q).flatMap (F.walk shown · (level + 1)) := by
  rw [walk, List.flatMap_subtype (g := fun c => F.walk shown c (level + 1)) fun _ _ => rfl,
    List.unattach_attach]

theorem Below.snoc (h : F.Below d q q') (hm : F.Child m q) : F.Below (d + 1) m q' := by
  induction h with
  | refl q => exact .step hm (.refl m)
  | step hc _ ih => exact .step hc (ih hm)

theorem Below.reflTransGen (h : F.Below d m q) : ReflTransGen F.Child m q := by
  induction h with
  | refl q => exact .refl
  | step hc _ ih => exact ih.tail hc

theorem not_transGen_self (q : κ) : ¬TransGen F.Child q q :=
  fun h => F.wf.transGen.irrefl.irrefl q h

/-- A node is below one child of another at most. -/
theorem child_eq_of_below (hc : F.Child c q) (hc' : F.Child c' q) (h : ReflTransGen F.Child m c)
    (h' : ReflTransGen F.Child m c') : c = c' := by
  have haux : ∀ {a b}, F.Child a q → F.Child b q → ReflTransGen F.Child a b → a = b := by
    intro a b ha hb hab
    refine hab.cases_head.resolve_right fun ⟨p, hap, hpb⟩ => ?_
    obtain rfl := F.unique a p q hap ha
    exact not_transGen_self p (TransGen.tail' hpb hb)
  have htotal := ReflTransGen.total_of_right_unique (fun a b b' => F.unique a b b') h h'
  rcases htotal with hle | hle
  · exact haux hc hc' hle
  · exact (haux hc' hc hle).symm

/-- A node has one depth. -/
theorem Below.depth_unique {d' : Nat} (h : F.Below d m q) (h' : F.Below d' m q) : d = d' := by
  induction h generalizing d' with
  | refl q =>
    cases h' with
    | refl => rfl
    | step hc h' => exact absurd (TransGen.tail' h'.reflTransGen hc) (not_transGen_self q)
  | step hc h ih =>
    cases h' with
    | refl => exact absurd (TransGen.tail' h.reflTransGen hc) (not_transGen_self _)
    | step hc' h' =>
      obtain rfl := child_eq_of_below hc hc' h.reflTransGen h'.reflTransGen
      rw [ih h']

end Forest

end Tlpi
