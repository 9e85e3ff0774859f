import Mathlib.Logic.Function.Basic

/-!
# Binary semaphores (`svsem/binary_sems.c`)

A System V semaphore set is the function that gives each semaphore's value. `semop` is atomic:
an operation that would make the value negative is not enabled (the caller sleeps). The retry
loop of `reserveSem` turns an interrupted `semop` into another attempt, so `reserveSem` as a
whole is the `semop` that succeeds; programs that use it add a step that changes nothing for
each attempt that fails with `EINTR`.
-/

namespace Tlpi

/-- The values of the semaphores of a set. -/
abbrev SemSet (n : Nat) := Fin n → Nat

namespace SemSet

variable {n : Nat}

/-- `semop(2)` with one operation: `none` while the caller would sleep. -/
def semop (s : SemSet n) (semNum : Fin n) (semOp : Int) : Option (SemSet n) :=
  if 0 ≤ (s semNum : Int) + semOp then
    some (Function.update s semNum ((s semNum : Int) + semOp).toNat)
  else none

/-- Initialize semaphore to 1 (i.e., "available"). -/
def initSemAvailable (s : SemSet n) (semNum : Fin n) : SemSet n := Function.update s semNum 1

/-- Initialize semaphore to 0 (i.e., "in use"). -/
def initSemInUse (s : SemSet n) (semNum : Fin n) : SemSet n := Function.update s semNum 0

/-- Reserve semaphore - decrement it by 1. -/
def reserveSem (s : SemSet n) (semNum : Fin n) : Option (SemSet n) := s.semop semNum (-1)

/-- Release semaphore - increment it by 1. -/
def releaseSem (s : SemSet n) (semNum : Fin n) : Option (SemSet n) := s.semop semNum 1

theorem reserveSem_eq_some {s t : SemSet n} {k : Fin n} (h : s.reserveSem k = some t) :
    0 < s k ∧ t = Function.update s k (s k - 1) := by
  simp only [reserveSem, semop, Option.ite_none_right_eq_some, Option.some.injEq] at h
  obtain ⟨h0, rfl⟩ := h
  refine ⟨by omega, ?_⟩
  congr 1
  omega

theorem reserveSem_of_pos {s : SemSet n} {k : Fin n} (h : 0 < s k) :
    s.reserveSem k = some (Function.update s k (s k - 1)) := by
  simp only [reserveSem, semop]
  rw [if_pos (by omega)]
  congr 2
  omega

@[simp] theorem releaseSem_eq (s : SemSet n) (k : Fin n) :
    s.releaseSem k = some (Function.update s k (s k + 1)) := by
  simp only [releaseSem, semop]
  rw [if_pos (by omega)]
  rfl

end SemSet

end Tlpi
