import Mathlib.Data.List.Basic

/-!
# Descriptor tables

A process's open files by descriptor number. A new descriptor gets the lowest number that is free,
so a number that has been closed comes back.
-/

namespace Tlpi

/-- The file of each descriptor; all numbers past the end are free. -/
structure FdTable (α : Type*) where
  files : List (Option α)
  deriving DecidableEq, Repr

namespace FdTable

variable {α : Type*}

def get (t : FdTable α) (fd : Nat) : Option α := t.files.getD fd none

/-- The number that the next descriptor gets. -/
def lowest (t : FdTable α) : Nat := t.files.findIdx Option.isNone

def alloc (t : FdTable α) (x : α) : FdTable α :=
  ⟨if t.lowest < t.files.length then t.files.set t.lowest (some x) else t.files ++ [some x]⟩

def close (t : FdTable α) (fd : Nat) : FdTable α := ⟨t.files.set fd none⟩

/-- Make `fd` a descriptor for `x`; a file that it referred to is closed. -/
def put (t : FdTable α) (fd : Nat) (x : α) : FdTable α :=
  ⟨(t.files ++ List.replicate (fd + 1 - t.files.length) none).set fd (some x)⟩

theorem get_lowest (t : FdTable α) : t.get t.lowest = none := by
  rw [get, List.getD_eq_getElem?_getD]
  cases h : t.files[t.lowest]? with
  | none => rfl
  | some x =>
    obtain ⟨hlt, rfl⟩ := List.getElem?_eq_some_iff.mp h
    exact Option.isNone_iff_eq_none.mp (List.findIdx_getElem (w := hlt))

theorem get_of_lt_lowest {t : FdTable α} {fd : Nat} (h : fd < t.lowest) : t.get fd ≠ none := by
  have hlen : fd < t.files.length := Nat.lt_of_lt_of_le h List.findIdx_le_length
  have hsome := List.not_of_lt_findIdx h
  rw [get, List.getD_eq_getElem?_getD, List.getElem?_eq_getElem hlen, Option.getD_some]
  rintro heq
  rw [heq] at hsome
  exact Bool.noConfusion hsome

theorem lowest_eq {t : FdTable α} {fd : Nat} (h : t.get fd = none)
    (hlt : ∀ i < fd, t.get i ≠ none) : t.lowest = fd := by
  rcases Nat.lt_trichotomy t.lowest fd with h' | h' | h'
  · exact absurd t.get_lowest (hlt _ h')
  · exact h'
  · exact absurd h (get_of_lt_lowest h')

theorem lt_lowest {t : FdTable α} {fd : Nat} (h : ∀ i ≤ fd, t.get i ≠ none) : fd < t.lowest :=
  Nat.lt_of_not_le fun hle => h _ hle t.get_lowest

theorem lowest_ne {t : FdTable α} {fd : Nat} {x : α} (h : t.get fd = some x) : t.lowest ≠ fd := by
  rintro rfl
  cases h.symm.trans t.get_lowest

theorem get_alloc (t : FdTable α) (x : α) (fd : Nat) :
    (t.alloc x).get fd = if fd = t.lowest then some x else t.get fd := by
  unfold alloc
  simp only [get, List.getD_eq_getElem?_getD]
  by_cases hlen : t.lowest < t.files.length
  · rw [if_pos hlen, List.getElem?_set]
    split
    · rename_i h
      rw [if_pos h.symm, Option.getD_some]
    · rename_i h
      rw [if_neg (Ne.symm h)]
  · have heq : t.lowest = t.files.length :=
      Nat.le_antisymm List.findIdx_le_length (Nat.le_of_not_lt hlen)
    rw [if_neg hlen, heq]
    split
    · rename_i h
      simp [h]
    · rename_i h
      rcases Nat.lt_or_gt_of_ne h with h' | h'
      · rw [List.getElem?_append_left h']
      · rw [List.getElem?_eq_none (by rw [List.length_append]; exact h'), List.getElem?_eq_none (by omega)]

theorem get_alloc_lowest (t : FdTable α) (x : α) : (t.alloc x).get t.lowest = some x := by
  rw [get_alloc, if_pos rfl]

theorem get_alloc_of_ne {t : FdTable α} {x y : α} {fd : Nat} (h : t.get fd = some y) :
    (t.alloc x).get fd = some y := by
  rw [get_alloc, if_neg (lowest_ne h).symm, h]

theorem get_alloc_ne_none {t : FdTable α} {x : α} {fd : Nat} (h : t.get fd ≠ none) :
    (t.alloc x).get fd ≠ none := by
  obtain ⟨y, hy⟩ := Option.ne_none_iff_exists'.mp h
  rw [get_alloc_of_ne hy]
  exact nofun

theorem lowest_lt_lowest_alloc (t : FdTable α) (x : α) : t.lowest < (t.alloc x).lowest := by
  refine lt_lowest fun i hi => ?_
  rcases Nat.lt_or_eq_of_le hi with hi | rfl
  · exact get_alloc_ne_none (get_of_lt_lowest hi)
  · exact ne_of_eq_of_ne (get_alloc_lowest t x) nofun

theorem get_close (t : FdTable α) (i fd : Nat) :
    (t.close i).get fd = if fd = i then none else t.get fd := by
  simp only [get, close, List.getD_eq_getElem?_getD, List.getElem?_set]
  split
  · rename_i h
    subst h
    split <;> simp
  · rename_i h
    rw [if_neg (Ne.symm h)]

theorem get_put (t : FdTable α) (i : Nat) (x : α) (fd : Nat) :
    (t.put i x).get fd = if fd = i then some x else t.get fd := by
  simp only [get, put, List.getD_eq_getElem?_getD, List.getElem?_set, List.length_append,
    List.length_replicate]
  split
  · next h =>
    subst h
    rw [if_pos (by omega), if_pos rfl, Option.getD_some]
  · next h =>
    rw [if_neg (Ne.symm h)]
    rcases Nat.lt_or_ge fd t.files.length with hlt | hge
    · rw [List.getElem?_append_left hlt]
    · rw [List.getElem?_append_right hge, List.getElem?_eq_none hge, List.getElem?_replicate]
      split <;> rfl

theorem get_close_of_ne {t : FdTable α} {i fd : Nat} (h : fd ≠ i) : (t.close i).get fd = t.get fd := by
  rw [get_close, if_neg h]

/-- The same descriptors are open, for the same files. -/
def Same (t t' : FdTable α) : Prop := ∀ fd, t'.get fd = t.get fd

/-- A new descriptor `fd` for the file `x` is open, and no other. -/
def Gains (t t' : FdTable α) (fd : Nat) (x : α) : Prop :=
  t.get fd = none ∧ ∀ i, t'.get i = if i = fd then some x else t.get i

theorem Same.rfl {t : FdTable α} : Same t t := fun _ => .refl _

theorem Same.trans {t u v : FdTable α} (h : Same t u) (h' : Same u v) : Same t v :=
  fun fd => (h' fd).trans (h fd)

theorem Same.gains {t u v : FdTable α} {fd : Nat} {x : α} (h : Same t u) (h' : Gains u v fd x) :
    Gains t v fd x := by
  refine ⟨(h fd).symm.trans h'.1, fun i => ?_⟩
  rw [h'.2 i, h i]

theorem gains_alloc (t : FdTable α) (x : α) : Gains t (t.alloc x) t.lowest x :=
  ⟨t.get_lowest, get_alloc t x⟩

/-- A new descriptor that is closed again leaves no trace. -/
theorem Gains.close {t t' : FdTable α} {fd : Nat} {x : α} (h : Gains t t' fd x) :
    Same t (t'.close fd) := by
  intro i
  rw [get_close]
  split
  · next hi => rw [hi, h.1]
  · next hi => rw [h.2, if_neg hi]

/-- Below the second of two new descriptors, closing the first leaves its number free and no
other. -/
theorem get_alloc_alloc_close {t : FdTable α} {x y : α} {i : Nat} (hi : i < (t.alloc x).lowest)
    (hne : i ≠ t.lowest) : (((t.alloc x).alloc y).close t.lowest).get i ≠ none := by
  rw [get_close_of_ne hne]
  exact get_alloc_ne_none (get_of_lt_lowest hi)

theorem lowest_alloc_alloc_close (t : FdTable α) (x y : α) :
    (((t.alloc x).alloc y).close t.lowest).lowest = t.lowest := by
  refine lowest_eq (by rw [get_close, if_pos rfl]) fun i hi => ?_
  exact get_alloc_alloc_close (Nat.lt_trans hi (lowest_lt_lowest_alloc t x)) (Nat.ne_of_lt hi)

end FdTable

end Tlpi
