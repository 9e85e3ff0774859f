import Mathlib.Algebra.BigOperators.Group.Finset.Piecewise
import Mathlib.Algebra.Order.BigOperators.Group.Finset
import Mathlib.Data.Fintype.BigOperators
import Mathlib.Tactic.Abel

/-!
# Tallies over a family of processes

A system of many processes keeps the local state of each one in a function of its index, and a
step of one process is a `Function.update`. A tally adds up what every process contributes; a
step changes it by what the process that moves contributes before and after.
-/

namespace Tlpi

open Function

variable {ι α M : Type*} [Fintype ι]

/-- What all processes contribute together: process `i` in local state `a` contributes `w i a`. -/
def tally [AddCommMonoid M] (w : ι → α → M) (f : ι → α) : M := ∑ i, w i (f i)

/-- The number of processes whose local state meets `p`. -/
def count (p : α → Bool) (f : ι → α) : Nat := tally (fun _ a => (p a).toNat) f

section Tally

variable [AddCommMonoid M] {w : ι → α → M} {f : ι → α}

/-- The step rule: a step of `k` trades its contribution for the new one. -/
theorem tally_update [DecidableEq ι] (w : ι → α → M) (f : ι → α) (k : ι) (a : α) :
    tally w (update f k a) + w k (f k) = tally w f + w k a := by
  have hrest : ∑ i ∈ Finset.univ.erase k, w i (update f k a i)
      = ∑ i ∈ Finset.univ.erase k, w i (f i) := by
    refine Finset.sum_congr rfl fun i hi => ?_
    rw [update_of_ne (Finset.ne_of_mem_erase hi)]
  have hk : k ∈ Finset.univ := Finset.mem_univ k
  rw [tally, tally, ← Finset.add_sum_erase _ _ hk, ← Finset.add_sum_erase _ _ hk, hrest,
    update_self]
  abel

/-- A step that keeps the contribution of the process that moves keeps the tally. -/
theorem tally_update_of_eq [DecidableEq ι] {k : ι} {a : α} (h : w k a = w k (f k)) :
    tally w (update f k a) = tally w f := by
  refine Finset.sum_congr rfl fun i _ => ?_
  rcases eq_or_ne i k with rfl | hi
  · rw [update_self, h]
  · rw [update_of_ne hi]

theorem tally_eq_zero (h : ∀ i, w i (f i) = 0) : tally w f = 0 :=
  Finset.sum_eq_zero fun i _ => h i

theorem tally_le_card_mul {w : ι → α → Nat} {f : ι → α} {n : Nat} (h : ∀ i, w i (f i) ≤ n) :
    tally w f ≤ Fintype.card ι * n := by
  refine (Finset.sum_le_sum fun i _ => h i).trans ?_
  rw [Finset.sum_const, Finset.card_univ, nsmul_eq_mul, Nat.cast_id]

end Tally

section Count

variable {p : α → Bool} {f : ι → α}

theorem count_update [DecidableEq ι] (p : α → Bool) (f : ι → α) (k : ι) (a : α) :
    count p (update f k a) + (p (f k)).toNat = count p f + (p a).toNat :=
  tally_update _ f k a

theorem count_update_of_eq [DecidableEq ι] {k : ι} {a : α} (h : p a = p (f k)) :
    count p (update f k a) = count p f :=
  tally_update_of_eq (congrArg Bool.toNat h)

theorem count_eq_zero_iff : count p f = 0 ↔ ∀ i, p (f i) = false := by
  rw [count, tally, Finset.sum_eq_zero_iff]
  simp

theorem count_congr {q : α → Bool} (h : ∀ i, p (f i) = q (f i)) : count p f = count q f :=
  Finset.sum_congr rfl fun i _ => congrArg Bool.toNat (h i)

/-- Processes all of which meet `p` are counted in full. -/
theorem count_of_forall (h : ∀ i, p (f i)) : count p f = Fintype.card ι := by
  simp [count, tally, h]

theorem forall_of_card_le_count (h : Fintype.card ι ≤ count p f) (i : ι) : p (f i) := by
  by_contra hi
  have hlt : count p f < ∑ _ : ι, 1 :=
    Finset.sum_lt_sum (fun k _ => (p (f k)).toNat_le) ⟨i, Finset.mem_univ i, by simp [hi]⟩
  rw [Finset.sum_const, Finset.card_univ, nsmul_eq_mul, Nat.cast_id, Nat.mul_one] at hlt
  omega

end Count

end Tlpi
