import Mathlib.Data.List.Basic

/-!
# Paths with a separator

A path is a list in which `sep` separates the components. `Under sep p q` says that `q` is `p` or a
path below it: `q` continues `p`, and what follows `p` is nothing or starts with a separator. This is
an order in which the paths above a given one are a chain.
-/

namespace Tlpi

variable {α : Type*} {sep : α} {p q r : List α}

def Under (sep : α) (p q : List α) : Prop := ∃ t, q = p ++ t ∧ (t = [] ∨ ∃ u, t = sep :: u)

namespace Under

theorem refl (sep : α) (p : List α) : Under sep p p := ⟨[], by simp, .inl rfl⟩

theorem child (sep : α) (p name : List α) : Under sep p (p ++ sep :: name) := ⟨_, rfl, .inr ⟨_, rfl⟩⟩

theorem length_le (h : Under sep p q) : p.length ≤ q.length := by
  obtain ⟨t, rfl, -⟩ := h
  simp

theorem trans (h : Under sep p q) (h' : Under sep q r) : Under sep p r := by
  obtain ⟨t, rfl, ht⟩ := h
  obtain ⟨u, rfl, hu⟩ := h'
  refine ⟨t ++ u, List.append_assoc .., ?_⟩
  rcases ht with rfl | ⟨t, rfl⟩
  · exact hu
  · exact .inr ⟨t ++ u, rfl⟩

theorem antisymm (h : Under sep p q) (h' : Under sep q p) : p = q := by
  have hle := h'.length_le
  obtain ⟨t, rfl, -⟩ := h
  rw [List.length_append] at hle
  have : t = [] := List.eq_nil_of_length_eq_zero (by omega)
  simp [this]

/-- Two paths above the same one are comparable. -/
theorem total (h : Under sep p r) (h' : Under sep q r) : Under sep p q ∨ Under sep q p := by
  obtain ⟨t, rfl, ht⟩ := h
  obtain ⟨u, heq, hu⟩ := h'
  obtain ⟨v, rfl, rfl⟩ | ⟨v, rfl, rfl⟩ := List.append_eq_append_iff.mp heq
  · refine .inl ⟨v, rfl, ?_⟩
    rcases ht with ht | ⟨w, hw⟩
    · exact .inl (List.append_eq_nil_iff.mp ht).1
    · cases v with
      | nil => exact .inl rfl
      | cons a v => exact .inr ⟨v, by rw [List.cons_append, List.cons.injEq] at hw; rw [hw.1]⟩
  · refine .inr ⟨v, rfl, ?_⟩
    rcases hu with hu | ⟨w, hw⟩
    · exact .inl (List.append_eq_nil_iff.mp hu).1
    · cases v with
      | nil => exact .inl rfl
      | cons a v => exact .inr ⟨v, by rw [List.cons_append, List.cons.injEq] at hw; rw [hw.1]⟩

/-- What is above a child is the child or above its parent. -/
theorem of_child {name : List α} (hname : sep ∉ name) (h : Under sep q (p ++ sep :: name)) :
    q = p ++ sep :: name ∨ Under sep q p := by
  obtain ⟨t, heq, rfl | ⟨u, rfl⟩⟩ := h
  · exact .inl (by simpa using heq.symm)
  · right
    obtain ⟨v, rfl, hv⟩ | ⟨v, rfl, hv⟩ := List.append_eq_append_iff.mp heq
    · cases v with
      | nil => exact ⟨[], by simp, .inl rfl⟩
      | cons a v =>
        rw [List.cons_append, List.cons.injEq] at hv
        exact absurd (hv.2 ▸ List.mem_append_right _ (List.mem_cons_self ..)) hname
    · cases v with
      | nil => exact ⟨[], by simp, .inl rfl⟩
      | cons a v =>
        rw [List.cons_append, List.cons.injEq] at hv
        exact ⟨a :: v, rfl, .inr ⟨v, by rw [hv.1]⟩⟩

theorem not_child (sep : α) (p name : List α) : ¬Under sep (p ++ sep :: name) p := fun h => by
  have := h.length_le
  simp only [List.length_append, List.length_cons] at this
  omega

/-- The path `q` under `p` when `p` is renamed to `r`. -/
theorem drop_append (h : Under sep p q) (r : List α) : Under sep r (r ++ q.drop p.length) := by
  obtain ⟨t, rfl, ht⟩ := h
  exact ⟨t, by simp, ht⟩

theorem append_drop (h : Under sep p q) : p ++ q.drop p.length = q := by
  obtain ⟨t, rfl, -⟩ := h
  simp

end Under

/-- Neither path is under the other. -/
def Apart (sep : α) (p q : List α) : Prop := ¬Under sep p q ∧ ¬Under sep q p

/-- Nothing is under two paths that are apart. -/
theorem Apart.symm (h : Apart sep p q) : Apart sep q p := ⟨h.2, h.1⟩

theorem Apart.not_under (h : Apart sep p q) (hr : Under sep p r) : ¬Under sep q r :=
  fun hq => (hr.total hq).elim h.1 h.2

end Tlpi
