import Mathlib.Logic.Function.Basic

/-!
# Locks for one thread at a time

A lock by what its operations promise: it is free or held, only a free one can be acquired, and
released it is free again. `Guarded` ties its state to the threads that are inside; the rules say how
each operation, and each step that keeps a thread inside or outside, keeps it.
-/

namespace Tlpi

open Function

variable {ι α γ : Type*}

/-- `acquire` is `none` while the caller has to wait. -/
structure Lock (γ : Type*) where
  init : γ
  acquire : γ → Option γ
  release : γ → γ
  Free : γ → Prop
  Held : γ → Prop
  free_init : Free init
  acquire_of_free : ∀ g, Free g → ∃ g', acquire g = some g' ∧ Held g'
  acquire_of_held : ∀ g, Held g → acquire g = none
  free_release : ∀ g, Held g → Free (release g)

namespace Lock

/-- The state of a read/write lock. -/
structure Rw where
  readers : Nat
  writer : Bool
  deriving DecidableEq

/-- A mutex or a spinlock, by whether it is locked. -/
def mutex : Lock Bool where
  init := false
  acquire g := if g then none else some true
  release _ := false
  Free g := g = false
  Held g := g = true
  free_init := rfl
  acquire_of_free g h := ⟨true, by rw [h]; rfl, rfl⟩
  acquire_of_held g h := by rw [h]; rfl
  free_release _ _ := rfl

/-- A read/write lock, locked for writing. -/
def rwlock : Lock Rw where
  init := ⟨0, false⟩
  acquire g := if g.readers = 0 ∧ g.writer = false then some { g with writer := true } else none
  release g := { g with writer := false }
  Free g := g.readers = 0 ∧ g.writer = false
  Held g := g.readers = 0 ∧ g.writer = true
  free_init := ⟨rfl, rfl⟩
  acquire_of_free _ h := ⟨_, if_pos h, h.1, rfl⟩
  acquire_of_held g h := if_neg fun hfree => by simp [h.2] at hfree
  free_release _ h := ⟨h.1, rfl⟩

/-- A semaphore with the initial value 1. -/
def semaphore : Lock Nat where
  init := 1
  acquire g := if 0 < g then some (g - 1) else none
  release g := g + 1
  Free g := g = 1
  Held g := g = 0
  free_init := rfl
  acquire_of_free g h := ⟨0, by rw [h]; rfl, rfl⟩
  acquire_of_held g h := by rw [h]; rfl
  free_release g h := by rw [h]

end Lock

/-- The lock is held exactly while a thread is inside, and there is never a second one. -/
inductive Guarded (L : Lock γ) (inside : ι → Prop) (g : γ) : Prop
  | free (hg : L.Free g) (hout : ∀ i, ¬inside i)
  | held (i : ι) (hg : L.Held g) (hin : ∀ k, inside k ↔ k = i)

namespace Guarded

variable {L : Lock γ} {inside : ι → Prop} {g g' : γ} {f : ι → α} {p : α → Prop} {i j : ι} {a : α}

theorem eq_of_inside (h : Guarded L inside g) (hi : inside i) (hj : inside j) : i = j := by
  cases h with
  | free hg hout => exact absurd hi (hout i)
  | held k hg hin => rw [(hin i).mp hi, (hin j).mp hj]

theorem held_of_inside (h : Guarded L inside g) (hi : inside i) : L.Held g := by
  cases h with
  | free hg hout => exact absurd hi (hout i)
  | held k hg hin => exact hg

/-- Only a free lock is acquired. -/
theorem outside_of_acquire (h : Guarded L inside g) (hg : L.acquire g = some g') (k : ι) :
    ¬inside k := fun hk => by
  rw [L.acquire_of_held g (h.held_of_inside hk)] at hg
  cases hg

/-- Whoever wants the lock gets it, or somebody is inside. -/
theorem acquire_or_inside (h : Guarded L inside g) :
    (∃ g', L.acquire g = some g') ∨ ∃ i, inside i := by
  cases h with
  | free hg hout =>
    obtain ⟨g', hg', -⟩ := L.acquire_of_free g hg
    exact .inl ⟨g', hg'⟩
  | held i hg hin => exact .inr ⟨i, (hin i).mpr rfl⟩

variable [DecidableEq ι]

theorem acquire (h : Guarded L (fun k => p (f k)) g) (hg : L.acquire g = some g') (ha : p a) :
    Guarded L (fun k => p (update f i a k)) g' := by
  have hout := h.outside_of_acquire hg
  have hheld : L.Held g' := by
    cases h with
    | free hfree _ =>
      obtain ⟨g'', hg'', hheld⟩ := L.acquire_of_free g hfree
      cases hg.symm.trans hg''
      exact hheld
    | held k _ hin => exact absurd ((hin k).mpr rfl) (hout k)
  refine .held i hheld fun k => ?_
  rcases eq_or_ne k i with rfl | hk
  · simpa using ha
  · simpa [hk] using hout k

theorem release (h : Guarded L (fun k => p (f k)) g) (hi : p (f i)) (ha : ¬p a) :
    Guarded L (fun k => p (update f i a k)) (L.release g) := by
  refine .free (L.free_release g (h.held_of_inside hi)) fun k => ?_
  rcases eq_or_ne k i with rfl | hk
  · simpa using ha
  · rw [update_of_ne hk]
    exact fun hk' => hk (h.eq_of_inside hk' hi)

/-- A step of a thread that stays inside, or outside. -/
theorem step (h : Guarded L (fun k => p (f k)) g) (ha : p a ↔ p (f i)) :
    Guarded L (fun k => p (update f i a k)) g := by
  have hp (k : ι) : p (update f i a k) ↔ p (f k) := by
    rcases eq_or_ne k i with rfl | hk
    · rw [update_self, ha]
    · rw [update_of_ne hk]
  simpa only [hp] using h

end Guarded

end Tlpi
