import Mathlib.Data.List.Basic
import Mathlib.Data.List.TakeDrop

/-!
# Byte streams with bounded buffers

What a pipe or a stream socket holds between a writer and a reader. A writer puts some of its items
in as long as there is room and a reader gets some of those that are there; neither changes their
order.
-/

namespace Tlpi

/-- The items that have been written and not yet read; there is room for `cap`. -/
structure Stream (α : Type*) (cap : Nat) where
  buf : List α
  length_le : buf.length ≤ cap

namespace Stream

variable {α : Type*} {cap n : Nat} {s s' : Stream α cap} {xs ys : List α}

def empty : Stream α cap := ⟨[], Nat.zero_le cap⟩

@[simp] theorem buf_empty : (empty : Stream α cap).buf = [] := rfl

/-- Move the first `n` of `xs` into the stream: the stream, and what is left of `xs`. -/
def put (s : Stream α cap) (xs : List α) (n : Nat) : Option (Stream α cap × List α) :=
  if h : (0 < n ∧ n ≤ xs.length) ∧ s.buf.length + n ≤ cap then
    some (⟨s.buf ++ xs.take n, by rw [List.length_append, List.length_take]; omega⟩, xs.drop n)
  else none

/-- Take the first `n` items: these, and the stream. -/
def get (s : Stream α cap) (n : Nat) : Option (List α × Stream α cap) :=
  if 0 < n ∧ n ≤ s.buf.length then
    some (s.buf.take n, ⟨s.buf.drop n, by have := s.length_le; rw [List.length_drop]; omega⟩)
  else none

theorem of_put (h : s.put xs n = some (s', ys)) :
    0 < n ∧ s'.buf ++ ys = s.buf ++ xs ∧ xs.length = ys.length + n ∧
      s'.buf.length = s.buf.length + n := by
  rw [put] at h
  split at h
  · next hn =>
    cases h
    refine ⟨hn.1.1, ?_, ?_, ?_⟩
    · rw [List.append_assoc, List.take_append_drop]
    · rw [List.length_drop]
      omega
    · rw [List.length_append, List.length_take]
      omega
  · cases h

theorem of_get (h : s.get n = some (xs, s')) :
    0 < n ∧ xs ++ s'.buf = s.buf ∧ xs.length = n ∧ s.buf.length = s'.buf.length + n := by
  rw [get] at h
  split at h
  · next hn =>
    cases h
    refine ⟨hn.1, List.take_append_drop n s.buf, ?_, ?_⟩
    · rw [List.length_take]
      omega
    · rw [List.length_drop]
      omega
  · cases h

/-- A writer waits for a full stream only. -/
theorem exists_put (hlt : s.buf.length < cap) (hxs : xs ≠ []) : ∃ r, s.put xs 1 = some r := by
  have hlen := List.length_pos_iff.mpr hxs
  exact ⟨_, dif_pos ⟨⟨Nat.one_pos, hlen⟩, hlt⟩⟩

/-- A reader waits for an empty stream only. -/
theorem exists_get (h : s.buf ≠ []) : ∃ r, s.get 1 = some r :=
  ⟨_, if_pos ⟨Nat.one_pos, List.length_pos_iff.mpr h⟩⟩

end Stream

end Tlpi
