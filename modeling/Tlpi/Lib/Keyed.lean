import Mathlib.Data.List.Nodup

/-!
# Lists whose elements have distinct keys

What it does to such a list to erase or to change the element that is found under a key, or to add
one under a new key, in terms of the elements of the list.
-/

namespace Tlpi

variable {α κ : Type*} [DecidableEq κ] {key : α → κ} {l : List α} {k : κ} {i : Nat} {a b : α}

/-- No two elements have the same key. -/
def UniqueKeys (key : α → κ) (l : List α) : Prop := (l.map key).Nodup

/-- The position of the first element with a key. -/
def findKey (key : α → κ) (k : κ) (l : List α) : Option Nat := l.findIdx? (key · = k)

theorem findKey_eq_none : findKey key k l = none ↔ ∀ a ∈ l, key a ≠ k := by
  simp [findKey]

namespace UniqueKeys

omit [DecidableEq κ] in
theorem perm {l' : List α} (h : UniqueKeys key l) (hp : l'.Perm l) : UniqueKeys key l' :=
  (hp.map key).nodup_iff.mpr h

omit [DecidableEq κ] in
theorem eq_of_key_eq (h : UniqueKeys key l) (ha : a ∈ l) (hb : b ∈ l) (hk : key a = key b) :
    a = b :=
  List.inj_on_of_nodup_map h ha hb hk

omit [DecidableEq κ] in
theorem append_singleton (h : UniqueKeys key l) (ha : ∀ b ∈ l, key b ≠ key a) :
    UniqueKeys key (l ++ [a]) := by
  rw [UniqueKeys, List.map_append, List.nodup_append]
  refine ⟨h, List.nodup_singleton _, ?_⟩
  intro x hx y hy
  obtain ⟨b, hb, rfl⟩ := List.mem_map.mp hx
  obtain rfl := List.mem_singleton.mp hy
  exact ha b hb

/-- The element that is found, between those that have other keys. -/
theorem split (h : UniqueKeys key l) (hi : findKey key k l = some i) :
    ∃ pre c post, l = pre ++ c :: post ∧ pre.length = i ∧ key c = k ∧
      ∀ b ∈ pre ++ post, key b ≠ k := by
  obtain ⟨hlt, hk, -⟩ := List.findIdx?_eq_some_iff_getElem.mp hi
  have hl : l = l.take i ++ l[i] :: l.drop (i + 1) := by
    rw [List.getElem_cons_drop, List.take_append_drop]
  have hnodup : (key l[i] :: (l.take i ++ l.drop (i + 1)).map key).Nodup := by
    rw [UniqueKeys, hl, List.map_append, List.map_cons, List.nodup_middle] at h
    rwa [List.map_append]
  obtain rfl : key l[i] = k := of_decide_eq_true hk
  refine ⟨l.take i, l[i], l.drop (i + 1), hl, List.length_take_of_le (Nat.le_of_lt hlt), rfl, ?_⟩
  intro b hb heq
  exact (List.nodup_cons.mp hnodup).1 (heq ▸ List.mem_map_of_mem hb)

/-- Erasing the element that is found takes away what has its key. -/
theorem eraseIdx (h : UniqueKeys key l) (hi : findKey key k l = some i) :
    UniqueKeys key (l.eraseIdx i) ∧ ∀ b, b ∈ l.eraseIdx i ↔ b ∈ l ∧ key b ≠ k := by
  refine ⟨h.sublist ((List.eraseIdx_sublist l i).map key), fun b => ?_⟩
  obtain ⟨pre, c, post, rfl, rfl, rfl, hother⟩ := h.split hi
  have herase : (pre ++ c :: post).eraseIdx pre.length = pre ++ post := by
    simp [List.eraseIdx_append_of_length_le (Nat.le_refl _)]
  rw [herase]
  constructor
  · intro hb
    refine ⟨?_, hother b hb⟩
    rcases List.mem_append.mp hb with hb | hb <;> simp [hb]
  · rintro ⟨hb, hne⟩
    simp only [List.mem_append, List.mem_cons] at hb ⊢
    rcases hb with hb | rfl | hb
    · exact .inl hb
    · exact absurd rfl hne
    · exact .inr hb

/-- Changing the element that is found replaces what has its key. -/
theorem modify {f : α → α} (h : UniqueKeys key l) (hi : findKey key k l = some i) {d : α}
    (hf : ∀ c, key c = k → f c = d) (hd : key d = k) :
    UniqueKeys key (l.modify i f) ∧ ∀ b, b ∈ l.modify i f ↔ b ∈ l ∧ key b ≠ k ∨ b = d := by
  obtain ⟨pre, c, post, rfl, rfl, hc, hother⟩ := h.split hi
  have hmodify : (pre ++ c :: post).modify pre.length f = pre ++ d :: post := by
    simp [List.modify_eq_take_drop, hf c hc]
  rw [hmodify]
  constructor
  · rw [UniqueKeys, List.map_append, List.map_cons, hd, ← hc, ← List.map_cons, ← List.map_append]
    exact h
  · intro b
    constructor
    · intro hb
      simp only [List.mem_append, List.mem_cons] at hb ⊢
      rcases hb with hb | rfl | hb
      · exact .inl ⟨.inl hb, hother b (List.mem_append_left _ hb)⟩
      · exact .inr rfl
      · exact .inl ⟨.inr (.inr hb), hother b (List.mem_append_right _ hb)⟩
    · intro hb
      simp only [List.mem_append, List.mem_cons] at hb ⊢
      rcases hb with ⟨hb | rfl | hb, hne⟩ | rfl
      · exact .inl hb
      · exact absurd hc hne
      · exact .inr (.inr hb)
      · exact .inr (.inl rfl)

/-- An element is all that has its key. -/
theorem filter_key (h : UniqueKeys key l) (ha : a ∈ l) : l.filter (key · = key a) = [a] := by
  cases hi : findKey key (key a) l with
  | none => exact absurd rfl (findKey_eq_none.mp hi a ha)
  | some i =>
    obtain ⟨pre, c, post, rfl, -, hc, hother⟩ := h.split hi
    have hca : c = a := h.eq_of_key_eq (by simp) ha hc
    have hpre : pre.filter (key · = key a) = [] := by
      simpa using fun b hb => hother b (List.mem_append_left _ hb)
    have hpost : post.filter (key · = key a) = [] := by
      simpa using fun b hb => hother b (List.mem_append_right _ hb)
    rw [List.filter_append, hpre, List.filter_cons_of_pos (by simp [hc]), hpost, hca]
    rfl

/-- What is found under a key does not depend on the order. -/
theorem find?_eq_of_perm {l' : List α} (h : UniqueKeys key l) (hp : l'.Perm l) (k : κ) :
    l'.find? (key · = k) = l.find? (key · = k) := by
  cases hfind : l.find? (key · = k) with
  | none =>
    rw [List.find?_eq_none] at hfind ⊢
    exact fun a ha => hfind a (hp.mem_iff.mp ha)
  | some a =>
    obtain rfl : key a = k := by simpa using List.find?_some hfind
    have ha := hp.mem_iff.mpr (List.mem_of_find?_eq_some hfind)
    rw [← List.head?_filter, (h.perm hp).filter_key ha, List.head?_cons]

end UniqueKeys

end Tlpi
