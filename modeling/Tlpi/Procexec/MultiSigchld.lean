import Tlpi.Lib.Machine
import Tlpi.Lib.Tally

/-!
# Reaping children in a `SIGCHLD` handler (`ch24-procexec/multi_SIGCHLD.cpp`)

The parent creates one child for each argument with `SIGCHLD` blocked, then waits in `sigsuspend`,
whose mask is empty. A standard signal is pending or not, however often it was generated. The
handler runs with `SIGCHLD` blocked and waits for all children that it finds terminated;
`sigsuspend` returns after it, with the old mask. Children terminate, stop and continue at any time.
-/

namespace Tlpi.MultiSigchld

open Function

variable {N : Nat}

/-- A child, as the parent's `waitpid` sees it. -/
inductive Status
  | unborn
  | alive
  | zombie
  | reaped
  deriving DecidableEq

/-- Created, and not yet waited for. -/
def Status.unreaped : Status → Bool
  | .alive | .zombie => true
  | .unborn | .reaped => false

/-- Where the parent is. -/
inductive Pc
  /-- `fork()` for argument `j`, or the end of that loop. -/
  | fork (j : Nat)
  /-- `while (numLiveChildren > 0)` -/
  | test
  /-- `sigsuspend(&emptyMask)`, waiting for a signal. -/
  | suspend
  /-- The handler's `waitpid(-1, &status, WNOHANG)`. -/
  | reap
  /-- The handler's `numLiveChildren--`. -/
  | decr
  /-- The handler after its loop. -/
  | sleep
  /-- `exit(EXIT_SUCCESS)` -/
  | done
  /-- Terminated by `errExit`. -/
  | failed (msg : String)
  deriving DecidableEq

/-- The handler runs. -/
def Pc.inHandler : Pc → Bool
  | .reap | .decr | .sleep => true
  | _ => false

/-- The parent is in `sigsuspend`, waiting or interrupted by the handler. -/
def Pc.inSigsuspend (pc : Pc) : Bool := pc = .suspend || pc.inHandler

/-- All children have been created. -/
def Pc.forked : Pc → Bool
  | .fork _ | .failed _ => false
  | _ => true

structure State (N : Nat) where
  child : Fin N → Status
  /-- `SIGCHLD` is pending. -/
  pending : Bool
  numLiveChildren : Int
  sigCnt : Nat
  pc : Pc

inductive Label (N : Nat)
  /-- Child `i` terminates. -/
  | exit (i : Fin N)
  /-- Child `i` stops or continues, which generates `SIGCHLD` too. -/
  | stop (i : Fin N)
  | fork (ok : Bool)
  | test
  /-- `SIGCHLD` is delivered in `sigsuspend`. -/
  | deliver
  /-- `waitpid` returns the child `i`, or no child. -/
  | waitpid (i : Option (Fin N))
  | decr
  /-- The handler returns, and so does `sigsuspend`. -/
  | returns
  deriving DecidableEq

def step (s : State N) : Label N → Option (State N)
  | .exit i =>
    if s.child i = .alive then
      some { s with child := update s.child i .zombie, pending := true }
    else none
  | .stop i => if s.child i = .alive then some { s with pending := true } else none
  | .fork ok =>
    match s.pc with
    | .fork j =>
      if h : j < N then
        if ok then some { s with child := update s.child ⟨j, h⟩ .alive, pc := .fork (j + 1) }
        else some { s with pc := .failed "fork" }
      else some { s with pc := .test }
    | _ => none
  | .test =>
    if s.pc = .test then
      some { s with pc := if 0 < s.numLiveChildren then .suspend else .done }
    else none
  | .deliver =>
    if s.pc = .suspend ∧ s.pending then some { s with pending := false, pc := .reap } else none
  | .waitpid (some i) =>
    if s.pc = .reap ∧ s.child i = .zombie then
      some { s with child := update s.child i .reaped, pc := .decr }
    else none
  | .waitpid none =>
    if s.pc = .reap ∧ ∀ i, s.child i ≠ .zombie then some { s with pc := .sleep } else none
  | .decr =>
    if s.pc = .decr then
      some { s with numLiveChildren := s.numLiveChildren - 1, pc := .reap }
    else none
  | .returns =>
    if s.pc = .sleep then some { s with sigCnt := s.sigCnt + 1, pc := .test } else none

def machine (N : Nat) : Machine (State N) (Label N) := ⟨step⟩

/-- `SIGCHLD` is blocked, no child exists, and `numLiveChildren` is `argc - 1`. -/
def State.init : State N := ⟨fun _ => .unborn, false, N, 0, .fork 0⟩

/-- The children that the parent has still to wait for. -/
def left (child : Fin N → Status) : Nat := count (· ≠ .reaped) child

structure Inv (s : State N) : Prop where
  /-- `numLiveChildren` lags behind only between `waitpid` and the decrement. -/
  live : s.numLiveChildren = left s.child + if s.pc = .decr then 1 else 0
  /-- A terminated child is announced, or the handler is still looking for such. -/
  wake : ∀ i, s.child i = .zombie → s.pending ∨ s.pc = .reap ∨ s.pc = .decr
  born : ∀ i, s.child i = .unborn → s.pc.forked = false
  unborn : ∀ i j, s.pc = .fork j → (s.child i = .unborn ↔ j ≤ i)
  done : s.pc = .done → left s.child = 0

section

variable {s t : State N} {child : Fin N → Status} {i : Fin N} {st : Status} {pc : Pc}

/-- Only `waitpid` changes what is left to wait for. -/
theorem left_update (hi : child i ≠ .reaped) (hst : st ≠ .reaped) :
    left (update child i st) = left child := by
  have h := count_update (· ≠ .reaped) child i st
  simp only [hi, hst, ne_eq, not_false_eq_true, decide_true, Bool.toNat_true] at h
  exact Nat.add_right_cancel h

theorem left_reap (hi : child i ≠ .reaped) : left (update child i .reaped) + 1 = left child := by
  have h := count_update (· ≠ .reaped) child i .reaped
  simp only [hi, ne_eq, not_false_eq_true, not_true_eq_false, decide_true, decide_false,
    Bool.toNat_true, Bool.toNat_false, Nat.add_zero] at h
  exact h

theorem inv_init : Inv (State.init (N := N)) := by
  refine ⟨?_, nofun, fun _ _ => rfl, fun i j hj => ?_, nofun⟩
  · have hleft : left (fun _ : Fin N => Status.unborn) = N := by
      rw [left, count_of_forall fun _ => rfl, Fintype.card_fin]
    simp [hleft, State.init]
  · cases hj
    exact ⟨fun _ => Nat.zero_le _, fun _ => rfl⟩

/-- The parent moves to `pc`; the children and the signal stay as they are. -/
theorem Inv.goto (h : Inv s) {sigCnt : Nat} (hs : s.pc ≠ .decr) (hpc : pc ≠ .decr)
    (hfork : ∀ j, pc ≠ .fork j) (hborn : pc.forked → ∀ i, s.child i ≠ .unborn)
    (hwake : s.pc = .reap → ∀ i, s.child i ≠ .zombie) (hdone : pc = .done → left s.child = 0) :
    Inv { s with sigCnt := sigCnt, pc := pc } := by
  refine ⟨?_, fun i hi => ?_, fun i hi => ?_, fun i j hj => absurd hj (hfork j), hdone⟩
  · simpa [hs, hpc] using h.live
  · rcases h.wake i hi with hp | hp | hp
    · exact .inl hp
    · exact absurd hi (hwake hp i)
    · exact absurd hp hs
  · exact Bool.eq_false_iff.mpr fun hf => hborn hf i hi

theorem Inv.not_unborn (h : Inv s) (hs : s.pc.forked) (i : Fin N) : s.child i ≠ .unborn :=
  fun hi => by simp [h.born i hi] at hs

theorem inv_fork {j : Nat} (h : Inv s) (hpc : s.pc = .fork j) (hj : j < N) :
    Inv { s with child := update s.child ⟨j, hj⟩ .alive, pc := .fork (j + 1) } := by
  have hu : s.child ⟨j, hj⟩ = .unborn := (h.unborn _ j hpc).mpr le_rfl
  refine ⟨?_, fun i hi => ?_, fun i _ => rfl, fun i k hk => ?_, nofun⟩
  · have hlive := h.live
    simp only [hpc, reduceCtorEq, if_false] at hlive ⊢
    rw [hlive, left_update (by simp [hu]) (by simp)]
  · rcases eq_or_ne i ⟨j, hj⟩ with rfl | hij
    · simp at hi
    · simpa [hpc] using h.wake i ((update_of_ne hij _ s.child).symm.trans hi)
  · cases hk
    rcases eq_or_ne i ⟨j, hj⟩ with rfl | hij
    · simp
    · have hne : (i : Nat) ≠ j := fun h => hij (Fin.ext h)
      simp only [update_of_ne hij, h.unborn i j hpc]
      omega

theorem inv_exit (h : Inv s) (hn : step s (.exit i) = some t) : Inv t := by
  simp only [step, Option.ite_none_right_eq_some, Option.some.injEq] at hn
  obtain ⟨hi, rfl⟩ := hn
  have hleft : left (update s.child i .zombie) = left s.child :=
    left_update (by simp [hi]) (by simp)
  refine ⟨?_, fun _ _ => .inl rfl, fun j hj => ?_, fun j k hk => ?_, fun hd => ?_⟩
  · rw [hleft]
    exact h.live
  · rcases eq_or_ne j i with rfl | hji
    · simp at hj
    · exact h.born j ((update_of_ne hji _ s.child).symm.trans hj)
  · rcases eq_or_ne j i with rfl | hji
    · simpa [hi] using h.unborn j k hk
    · simpa [hji] using h.unborn j k hk
  · rw [hleft]
    exact h.done hd

theorem inv_forkStep {ok : Bool} (h : Inv s) (hn : step s (.fork ok) = some t) : Inv t := by
  cases hpc : s.pc with
  | fork j =>
    simp only [step, hpc] at hn
    split at hn
    · split at hn <;> cases hn
      · exact inv_fork h hpc ‹_›
      · exact h.goto (by simp [hpc]) nofun nofun nofun (by simp [hpc]) nofun
    · cases hn
      refine h.goto (by simp [hpc]) nofun nofun (fun _ i hi => ?_) (by simp [hpc]) nofun
      have hle := (h.unborn i j hpc).mp hi
      omega
  | test | suspend | reap | decr | sleep | done | failed msg => simp [step, hpc] at hn

theorem inv_test (h : Inv s) (hn : step s .test = some t) : Inv t := by
  simp only [step, Option.ite_none_right_eq_some, Option.some.injEq] at hn
  obtain ⟨hpc, rfl⟩ := hn
  refine h.goto (by simp [hpc]) ?_ ?_ (fun _ => h.not_unborn (by simp [hpc, Pc.forked]))
    (by simp [hpc]) fun hd => ?_
  · split <;> nofun
  · split <;> nofun
  · have hlive := h.live
    have hle : ¬0 < s.numLiveChildren := fun h0 => by simp [h0] at hd
    simp only [hpc, reduceCtorEq, if_false] at hlive
    omega

theorem inv_waitpid {r : Option (Fin N)} (h : Inv s) (hn : step s (.waitpid r) = some t) :
    Inv t := by
  cases r with
  | some i =>
    simp only [step, Option.ite_none_right_eq_some, Option.some.injEq] at hn
    obtain ⟨⟨hpc, hi⟩, rfl⟩ := hn
    refine ⟨?_, fun _ _ => .inr (.inr rfl), fun j hj => ?_, nofun, nofun⟩
    · have hlive := h.live
      have hleft : left (update s.child i .reaped) + 1 = left s.child :=
        left_reap (by simp [hi])
      simp only [hpc, reduceCtorEq, if_false, if_true] at hlive ⊢
      omega
    · rcases eq_or_ne j i with rfl | hji
      · simp at hj
      · have hj' := h.born j ((update_of_ne hji _ s.child).symm.trans hj)
        simp [hpc, Pc.forked] at hj'
  | none =>
    simp only [step, Option.ite_none_right_eq_some, Option.some.injEq] at hn
    obtain ⟨⟨hpc, hz⟩, rfl⟩ := hn
    exact h.goto (by simp [hpc]) nofun nofun
      (fun _ => h.not_unborn (by simp [hpc, Pc.forked])) (fun _ => hz) nofun

theorem inv_step {a : Label N} (h : Inv s) (hn : step s a = some t) : Inv t := by
  cases a with
  | exit i => exact inv_exit h hn
  | stop i =>
    simp only [step, Option.ite_none_right_eq_some, Option.some.injEq] at hn
    obtain ⟨-, rfl⟩ := hn
    exact ⟨h.live, fun _ _ => .inl rfl, h.born, h.unborn, h.done⟩
  | fork ok => exact inv_forkStep h hn
  | test => exact inv_test h hn
  | deliver =>
    simp only [step, Option.ite_none_right_eq_some, Option.some.injEq] at hn
    obtain ⟨⟨hpc, -⟩, rfl⟩ := hn
    refine ⟨?_, fun _ _ => .inr (.inl rfl), fun i hi => ?_, nofun, nofun⟩
    · simpa [hpc] using h.live
    · simpa [hpc, Pc.forked] using h.born i hi
  | waitpid r => exact inv_waitpid h hn
  | decr =>
    simp only [step, Option.ite_none_right_eq_some, Option.some.injEq] at hn
    obtain ⟨hpc, rfl⟩ := hn
    refine ⟨?_, fun _ _ => .inr (.inl rfl), fun i hi => ?_, nofun, nofun⟩
    · have hlive := h.live
      simp only [hpc, reduceCtorEq, if_false, if_true] at hlive ⊢
      omega
    · have hi' := h.born i hi
      simp [hpc, Pc.forked] at hi'
  | returns =>
    simp only [step, Option.ite_none_right_eq_some, Option.some.injEq] at hn
    obtain ⟨hpc, rfl⟩ := hn
    exact h.goto (by simp [hpc]) nofun nofun
      (fun _ => h.not_unborn (by simp [hpc, Pc.forked])) (by simp [hpc]) nofun

theorem inv_of_reachable (h : (machine N).Reachable State.init s) : Inv s :=
  h.invariant inv_init fun _ _ _ hi _ => inv_step hi

end

/-- The parent waits for every child; between a successful `waitpid` and the decrement,
`numLiveChildren` is `lag` too large. -/
structure Reaps (lag : Nat) (s : State N) : Prop where
  live : s.pc.forked → s.numLiveChildren =
    count Status.unreaped s.child + if s.pc = .decr then lag else 0
  wake : s.pc.inSigsuspend → (∃ i, s.child i = .zombie) → s.pending ∨ s.pc.inHandler
  done : s.pc = .done → ∀ i, s.child i = .reaped

theorem Inv.left_eq {s : State N} (h : Inv s) (hf : s.pc.forked) :
    left s.child = count Status.unreaped s.child := by
  refine count_congr fun i => ?_
  cases hi : s.child i with
  | unborn => exact absurd hi (h.not_unborn hf i)
  | alive | zombie | reaped => rfl

theorem reaps_of_reachable {s : State N} (h : (machine N).Reachable State.init s) : Reaps 1 s := by
  have hinv := inv_of_reachable h
  refine ⟨fun hf => ?_, fun _ ⟨i, hi⟩ => ?_, fun hpc i => ?_⟩
  · rw [← hinv.left_eq hf]
    exact_mod_cast hinv.live
  · rcases hinv.wake i hi with hp | hp | hp
    · exact .inl hp
    · exact .inr (by simp [hp, Pc.inHandler])
    · exact .inr (by simp [hp, Pc.inHandler])
  · simpa using count_eq_zero_iff.mp (hinv.done hpc) i

/-- Two children terminate while `SIGCHLD` is blocked; one signal is enough to reap both. -/
theorem reaps_two : ∃ s, (machine 2).Reachable State.init s ∧ s.pc = .done ∧ s.sigCnt = 1 ∧
    Reaps 1 s := by
  have hr : ∃ s, (machine 2).Reachable State.init s ∧ s.pc = .done ∧ s.sigCnt = 1 :=
    Machine.Reachable.exists_of_run
      [.fork true, .fork true, .exit 1, .exit 0, .fork true, .test, .deliver, .waitpid (some 0),
        .decr, .waitpid (some 1), .decr, .waitpid none, .returns, .test] .refl
      ⟨_, rfl, rfl, rfl⟩
  obtain ⟨s, hs, hpc, hcnt⟩ := hr
  exact ⟨s, hs, hpc, hcnt, reaps_of_reachable hs⟩

/-- A child is reaped before `numLiveChildren` is decremented. -/
theorem not_reaps_without_lag : ∃ s, (machine 1).Reachable State.init s ∧ ¬Reaps 0 s :=
  Machine.Reachable.exists_of_run
    [.fork true, .fork true, .exit 0, .test, .deliver, .waitpid (some 0)] .refl
    ⟨_, rfl, fun h => absurd (h.live rfl) (by decide)⟩

end Tlpi.MultiSigchld
