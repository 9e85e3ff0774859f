import Mathlib.Data.List.Forall2
import Mathlib.Data.List.TakeWhile

/-!
# Cutting a list at a separator

What a scanner does that looks for the next separator, ends the current field there and goes on
behind it.
-/

namespace Tlpi

variable {α : Type*} [DecidableEq α] {sep : α} {s x y : List α}

/-- The part before the first separator and the part after it, if there is one. -/
def cut (sep : α) (s : List α) : Option (List α × List α) :=
  match s with
  | [] => none
  | a :: s => if a = sep then some ([], s) else (cut sep s).map fun p => (a :: p.1, p.2)

theorem cut_eq_none : cut sep s = none ↔ sep ∉ s := by
  induction s with
  | nil => simp [cut]
  | cons a s ih =>
    by_cases ha : a = sep
    · simp [cut, ha]
    · simp [cut, ha, ih, Ne.symm ha]

theorem cut_append (h : sep ∉ x) : cut sep (x ++ sep :: y) = some (x, y) := by
  induction x with
  | nil => simp [cut]
  | cons a x ih =>
    obtain ⟨hne, hx⟩ := List.ne_and_not_mem_of_not_mem_cons h
    simp [cut, hne.symm, ih hx]

theorem cut_eq_some : cut sep s = some (x, y) ↔ s = x ++ sep :: y ∧ sep ∉ x := by
  refine ⟨fun h => ?_, fun ⟨hs, hx⟩ => hs ▸ cut_append hx⟩
  induction s generalizing x with
  | nil => cases h
  | cons a s ih =>
    rw [cut] at h
    split at h
    · next ha =>
      cases h
      simp [ha]
    · next ha =>
      obtain ⟨p, hp, heq⟩ := Option.map_eq_some_iff.mp h
      cases heq
      obtain ⟨rfl, hx⟩ := ih hp
      simp [hx, Ne.symm ha]

/-- The fields of a list are the first one and those behind the first separator. -/
theorem splitOn_of_cut_eq_none (h : cut sep s = none) : s.splitOn sep = [s] :=
  List.splitOn_eq_singleton (cut_eq_none.mp h)

theorem splitOn_of_cut_eq_some (h : cut sep s = some (x, y)) :
    s.splitOn sep = x :: y.splitOn sep := by
  obtain ⟨rfl, hx⟩ := cut_eq_some.mp h
  rw [List.splitOn_append_cons_self, List.splitOn_eq_singleton hx]
  rfl

/-- No field has the separator in it. -/
theorem notMem_of_mem_splitOn (h : x ∈ s.splitOn sep) : sep ∉ x := by
  induction s generalizing x with
  | nil =>
    obtain rfl : x = [] := by simpa using h
    exact List.not_mem_nil
  | cons a s ih =>
    obtain ⟨y, ys, hy⟩ := List.exists_cons_of_ne_nil (List.splitOn_ne_nil sep s)
    rw [List.splitOn_cons_eq_if_modifyHead, hy] at h
    rw [hy] at ih
    by_cases ha : a = sep
    · simp only [ha, beq_self_eq_true, if_true, List.mem_cons] at h
      rcases h with rfl | h
      · exact List.not_mem_nil
      · exact ih (List.mem_cons.mpr h)
    · simp only [beq_iff_eq, ha, if_false, List.modifyHead_cons, List.mem_cons] at h
      rcases h with rfl | h
      · exact List.not_mem_cons_of_ne_of_not_mem (Ne.symm ha) (ih List.mem_cons_self)
      · exact ih (List.mem_cons_of_mem y h)

theorem length_lt_of_cut_eq_some (h : cut sep s = some (x, y)) : y.length < s.length := by
  rw [(cut_eq_some.mp h).1, List.length_append, List.length_cons]
  omega

/-- The lists of fields that a list is made of are its split. -/
theorem exists_fields_iff {P : List (List α) → Prop} :
    (∃ fields, s = [sep].intercalate fields ∧ (∀ x ∈ fields, sep ∉ x) ∧ 1 ≤ fields.length ∧
      P fields) ↔ P (s.splitOn sep) := by
  constructor
  · rintro ⟨fields, rfl, hsep, hpos, h⟩
    rwa [List.splitOn_intercalate sep hsep (List.length_pos_iff.mp hpos)]
  · intro h
    refine ⟨s.splitOn sep, (List.intercalate_splitOn sep).symm, ?_, ?_, h⟩
    · exact fun x hx => notMem_of_mem_splitOn hx
    · exact List.length_pos_iff.mpr (List.splitOn_ne_nil sep s)

/-- A loop that handles the fields of a list one by one, `limit` at most, and counts them: it is
enough to know what it does with the last field and with one that another follows. -/
theorem fieldsLoop_iff {ε β : Type*} {f : Nat → List α → Except ε (Nat × List β)} {limit : Nat}
    {D : List α → β → Prop} (hlimit : ∀ n s r, limit ≤ n → f n s ≠ .ok r)
    (hlast : ∀ n s r, n < limit → cut sep s = none →
      (f n s = .ok r ↔ ∃ b, D s b ∧ r = (n + 1, [b])))
    (hnext : ∀ n s x y r, n < limit → cut sep s = some (x, y) →
      (f n s = .ok r ↔ ∃ b, D x b ∧ ∃ r', f (n + 1) y = .ok r' ∧ r = (r'.1, b :: r'.2)))
    {n m : Nat} {bs : List β} :
    f n s = .ok (m, bs) ↔
      m = n + (s.splitOn sep).length ∧ m ≤ limit ∧ List.Forall₂ D (s.splitOn sep) bs := by
  induction hlen : s.length using Nat.strong_induction_on generalizing s n m bs with
  | h len ih =>
    have hpos : 0 < (s.splitOn sep).length := List.length_pos_iff.mpr (List.splitOn_ne_nil sep s)
    rcases Nat.lt_or_ge n limit with hn | hn
    · cases hcut : cut sep s with
      | none =>
        rw [hlast n s _ hn hcut, splitOn_of_cut_eq_none hcut, List.length_singleton]
        constructor
        · rintro ⟨b, hb, heq⟩
          cases heq
          exact ⟨rfl, hn, .cons hb .nil⟩
        · rintro ⟨rfl, -, hall⟩
          obtain ⟨b, l, hb, hnil, rfl⟩ := List.forall₂_cons_left_iff.mp hall
          cases hnil
          exact ⟨b, hb, rfl⟩
      | some p =>
        obtain ⟨x, y⟩ := p
        have hy := hlen ▸ length_lt_of_cut_eq_some hcut
        rw [hnext n s x y _ hn hcut, splitOn_of_cut_eq_some hcut, List.length_cons]
        constructor
        · rintro ⟨b, hb, ⟨m', l⟩, hrest, heq⟩
          cases heq
          obtain ⟨hm, hle, hall⟩ := (ih _ hy rfl).mp hrest
          exact ⟨by omega, hle, .cons hb hall⟩
        · rintro ⟨hm, hle, hall⟩
          obtain ⟨b, l, hb, hrest, rfl⟩ := List.forall₂_cons_left_iff.mp hall
          exact ⟨b, hb, (m, l), (ih _ hy rfl).mpr ⟨by omega, hle, hrest⟩, rfl⟩
    · refine ⟨fun h => absurd h (hlimit n s _ hn), fun h => ?_⟩
      omega

end Tlpi
