import Mathlib.Data.List.Basic

/-!
# Recursions over the members of a list

A function with fuel that calls itself on each member of a list: it has a result if all of the calls
have, and enough fuel for each of them is enough for all.
-/

namespace Tlpi.Fuel

variable {α β : Type}

theorem mapM_eq_some {f : α → Option β} {l : List α} (h : ∀ x ∈ l, ∃ y, f x = some y) :
    ∃ ys, l.mapM f = some ys := by
  induction l with
  | nil => exact ⟨[], rfl⟩
  | cons x l ih =>
    obtain ⟨y, hy⟩ := h x List.mem_cons_self
    obtain ⟨ys, hys⟩ := ih fun z hz => h z (List.mem_cons_of_mem _ hz)
    exact ⟨y :: ys, by simp [List.mapM_cons, hy, hys]⟩

/-- A bound that works for every member of a list. -/
theorem exists_common_bound {P : α → Nat → Prop} {l : List α}
    (h : ∀ x ∈ l, ∃ n, ∀ k, n ≤ k → P x k) : ∃ n, ∀ x ∈ l, ∀ k, n ≤ k → P x k := by
  induction l with
  | nil => exact ⟨0, fun x hx => absurd hx List.not_mem_nil⟩
  | cons x l ih =>
    obtain ⟨n, hn⟩ := h x List.mem_cons_self
    obtain ⟨n', hn'⟩ := ih fun z hz => h z (List.mem_cons_of_mem _ hz)
    refine ⟨max n n', fun z hz k hk => ?_⟩
    rcases List.mem_cons.mp hz with rfl | hz
    · exact hn k (Nat.le_trans (Nat.le_max_left n n') hk)
    · exact hn' z hz k (Nat.le_trans (Nat.le_max_right n n') hk)

end Tlpi.Fuel
