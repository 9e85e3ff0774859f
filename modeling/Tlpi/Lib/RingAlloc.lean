import Mathlib.Data.Set.Lattice
import Mathlib.Data.Nat.ModEq
import Mathlib.Order.CompletePartialOrder
import Mathlib.Order.Interval.Set.Basic
import Mathlib.Data.List.Basic

/-!
# Consecutive allocation modulo `M`

An allocator hands out consecutive blocks of numbers and counts modulo `M`. No number is handed
out twice exactly as long as at most `M` numbers are handed out.
-/

namespace Tlpi.RingAlloc

/-- The numbers of a block of length `n` that starts at `a`, counted modulo `M`. -/
def arc (M a n : Nat) : Set Nat := { x | ∃ k, k < n ∧ x = (a + k) % M }

/-- The blocks of the given lengths, from `a` on. -/
def alloc (M : Nat) : Nat → List Nat → List (Nat × Nat)
  | _, [] => []
  | a, n :: ns => (a, n) :: alloc M ((a + n) % M) ns

variable {M a n : Nat}

theorem arc_mod (M a n : Nat) : arc M (a % M) n = arc M a n := by
  simp only [arc, Nat.mod_add_mod]

theorem arc_subset_add_left (M a n m : Nat) : arc M a n ⊆ arc M a (n + m) := by
  rintro x ⟨k, hk, rfl⟩
  exact ⟨k, Nat.lt_add_right m hk, rfl⟩

theorem arc_subset_add_right (M a n m : Nat) : arc M (a + n) m ⊆ arc M a (n + m) := by
  rintro x ⟨k, hk, rfl⟩
  exact ⟨n + k, Nat.add_lt_add_left hk n, by rw [Nat.add_assoc]⟩

theorem arc_add_subset (M a n m : Nat) : arc M a (n + m) ⊆ arc M a n ∪ arc M (a + n) m := by
  rintro x ⟨k, hk, rfl⟩
  rcases Nat.lt_or_ge k n with h | h
  · exact .inl ⟨k, h, rfl⟩
  · refine .inr ⟨k - n, Nat.sub_lt_left_of_lt_add h hk, ?_⟩
    rw [Nat.add_assoc, Nat.add_sub_cancel' h]

/-- Adjacent blocks do not meet as long as they do not go once around. -/
theorem arc_disjoint {m : Nat} (h : n + m ≤ M) : Disjoint (arc M a n) (arc M (a + n) m) := by
  rw [Set.disjoint_left]
  rintro x ⟨k, hk, rfl⟩ ⟨k', hk', heq⟩
  have hmod : k ≡ n + k' [MOD M] := Nat.ModEq.add_left_cancel' a (by rw [← Nat.add_assoc]; exact heq)
  have := Nat.ModEq.eq_of_lt_of_lt hmod (by omega) (by omega)
  omega

/-- Every block lies in the whole stretch. -/
theorem arc_subset_of_mem {ns : List Nat} {b : Nat × Nat} (h : b ∈ alloc M a ns) :
    arc M b.1 b.2 ⊆ arc M a ns.sum := by
  induction ns generalizing a with
  | nil => cases h
  | cons n ns ih =>
    rw [List.sum_cons]
    rcases List.mem_cons.mp h with rfl | h
    · exact arc_subset_add_left ..
    · have := ih h
      rw [arc_mod] at this
      exact this.trans (arc_subset_add_right ..)

/-- Every number of the stretch lies in a block. -/
theorem exists_mem_of_mem_arc {ns : List Nat} {x : Nat} (h : x ∈ arc M a ns.sum) :
    ∃ b ∈ alloc M a ns, x ∈ arc M b.1 b.2 := by
  induction ns generalizing a with
  | nil =>
    obtain ⟨k, hk, -⟩ := h
    exact absurd hk (Nat.not_lt_zero k)
  | cons n ns ih =>
    rw [List.sum_cons] at h
    rcases arc_add_subset _ _ _ _ h with h | h
    · exact ⟨(a, n), List.mem_cons_self, h⟩
    · rw [← arc_mod] at h
      obtain ⟨b, hb, hx⟩ := ih h
      exact ⟨b, List.mem_cons_of_mem _ hb, hx⟩

theorem alloc_pairwise_disjoint {ns : List Nat} (h : ns.sum ≤ M) :
    (alloc M a ns).Pairwise fun b c => Disjoint (arc M b.1 b.2) (arc M c.1 c.2) := by
  induction ns generalizing a with
  | nil => exact .nil
  | cons n ns ih =>
    rw [List.sum_cons] at h
    refine .cons ?_ (ih (by omega))
    intro c hc
    have hsub := arc_subset_of_mem hc
    rw [arc_mod] at hsub
    exact (arc_disjoint h).mono_right hsub

theorem sum_le_of_pairwise_disjoint {ns : List Nat} (hpos : ∀ n ∈ ns, 0 < n ∧ n ≤ M)
    (h : (alloc M a ns).Pairwise fun b c => Disjoint (arc M b.1 b.2) (arc M c.1 c.2)) :
    ns.sum ≤ M := by
  cases ns with
  | nil => exact Nat.zero_le M
  | cons n ns =>
    obtain ⟨hn, hle⟩ := hpos n List.mem_cons_self
    by_contra hlt
    rw [List.sum_cons] at hlt
    -- the first number comes round again `M` numbers later
    have hmem : a % M ∈ arc M ((a + n) % M) ns.sum := by
      rw [arc_mod]
      refine ⟨M - n, by omega, ?_⟩
      rw [Nat.add_assoc, Nat.add_sub_cancel' hle, Nat.add_mod_right]
    obtain ⟨b, hb, hx⟩ := exists_mem_of_mem_arc hmem
    exact Set.disjoint_left.mp ((List.pairwise_cons.mp h).1 b hb) ⟨0, hn, rfl⟩ hx

/-- The blocks of an allocator that counts modulo `M` are disjoint exactly when they have at most
`M` numbers together. -/
theorem pairwise_disjoint_iff {ns : List Nat} (hpos : ∀ n ∈ ns, 0 < n ∧ n ≤ M) :
    ((alloc M a ns).Pairwise fun b c => Disjoint (arc M b.1 b.2) (arc M c.1 c.2)) ↔ ns.sum ≤ M :=
  ⟨sum_le_of_pairwise_disjoint hpos, alloc_pairwise_disjoint⟩

/-- Blocks that are disjoint modulo `M` are disjoint as ranges of numbers. -/
theorem ico_disjoint {b m : Nat} (h : Disjoint (arc M a n) (arc M b m)) :
    Disjoint (Set.Ico a (a + n)) (Set.Ico b (b + m)) := by
  have hmem : ∀ {x c l : Nat}, x ∈ Set.Ico c (c + l) → x % M ∈ arc M c l := by
    rintro x c l ⟨h₁, h₂⟩
    refine ⟨x - c, Nat.sub_lt_left_of_lt_add h₁ h₂, ?_⟩
    rw [Nat.add_sub_cancel' h₁]
  rw [Set.disjoint_left] at h ⊢
  exact fun x hx hy => h (hmem hx) (hmem hy)

end Tlpi.RingAlloc
