import Tlpi.Lib.Machine
import Tlpi.Lib.Monitor
import Tlpi.Lib.Tally

/-!
# Threads that meet at a barrier

`pthread_barrier_demo`: all threads wait on one barrier `numBarriers` times. A thread that is
released may wait for the next time while others that were released with it have not run yet.
-/

namespace Tlpi.PthreadBarrier

open Function

inductive Pc
  | loop
  | waiting
  | released (serial : Bool)
  deriving DecidableEq

/-- A thread, with the values that `pthread_barrier_wait` has returned to it; `true` stands for
`PTHREAD_BARRIER_SERIAL_THREAD`. -/
structure Thread where
  rets : List Bool
  pc : Pc
  deriving DecidableEq

/-- `arrived` threads wait on the barrier. -/
structure State (ι : Type*) where
  arrived : Nat
  thread : ι → Thread

section

variable {ι : Type*} [DecidableEq ι]

def State.init : State ι := ⟨0, fun _ => ⟨[], .loop⟩⟩

/-- `pthread_barrier_wait` by thread `i`, for a barrier of `count` threads. The last one that it
needs releases all, and one of them, `serial`, is told so. -/
def barrierWait (count : Nat) (s : State ι) (i serial : ι) : Option (State ι) :=
  let thread := update s.thread i ⟨(s.thread i).rets, .waiting⟩
  if s.arrived + 1 < count then some ⟨s.arrived + 1, thread⟩
  else if (thread serial).pc = .waiting then
    some ⟨0, fun k =>
      if (thread k).pc = .waiting then ⟨(thread k).rets, .released (decide (k = serial))⟩
      else thread k⟩
  else none

/-- A step of `threadFunc`. -/
def step (count numBarriers : Nat) (s : State ι) : ι × ι → Option (State ι)
  | (i, serial) =>
    match s.thread i with
    | ⟨rets, .loop⟩ => if rets.length < numBarriers then barrierWait count s i serial else none
    | ⟨_, .waiting⟩ => none
    | ⟨rets, .released b⟩ => some { s with thread := update s.thread i ⟨rets ++ [b], .loop⟩ }

def machine (ι : Type*) [DecidableEq ι] (count numBarriers : Nat) : Machine (State ι) (ι × ι) :=
  ⟨step count numBarriers⟩

end

def Thread.waiting (th : Thread) : Bool := th.pc = .waiting

/-- The return values, also one that the thread has not seen yet. -/
def Thread.passed : Thread → List Bool
  | ⟨rets, .released b⟩ => rets ++ [b]
  | ⟨rets, _⟩ => rets

/-- The calls of `pthread_barrier_wait` so far. -/
def Thread.waits : Thread → Nat
  | ⟨rets, .loop⟩ => rets.length
  | ⟨rets, _⟩ => rets.length + 1

def Thread.steps (th : Thread) : Nat := th.rets.length + th.waits

theorem Thread.rets_le (th : Thread) : th.rets.length ≤ th.passed.length := by
  rcases th with ⟨rets, _ | _ | b⟩ <;> simp [passed]

theorem Thread.passed_le (th : Thread) : th.passed.length ≤ th.waits := by
  rcases th with ⟨rets, _ | _ | b⟩ <;> simp [passed, waits]

variable {ι : Type*} [Fintype ι]

/-- All threads have passed the barrier equally often, and each time one of them was told so. -/
structure Inv (numBarriers : Nat) (s : State ι) : Prop where
  arrived : s.arrived = count Thread.waiting s.thread
  arrived_lt : s.arrived < Fintype.card ι
  waits_le : ∀ i, (s.thread i).waits ≤ numBarriers
  passed : ∀ i k, (s.thread i).passed.length = (s.thread k).passed.length
  serial : ∀ i, ∀ j < (s.thread i).passed.length, ∃! k, (s.thread k).passed[j]? = some true

variable {numBarriers : Nat} {s t : State ι} {i : ι}

theorem inv_init [Nonempty ι] : Inv numBarriers (State.init : State ι) where
  arrived := (count_eq_zero_iff.mpr fun _ => rfl).symm
  arrived_lt := Fintype.card_pos
  waits_le _ := Nat.zero_le _
  passed _ _ := rfl
  serial i j hj := by simp [State.init, Thread.passed] at hj

variable [DecidableEq ι]

/-- A step that keeps what the thread has passed. -/
theorem Inv.update {n : Nat} {th : Thread} (h : Inv numBarriers s)
    (hn : n = count Thread.waiting (update s.thread i th)) (hlt : n < Fintype.card ι)
    (hwaits : th.waits ≤ numBarriers) (hpassed : th.passed = (s.thread i).passed) :
    Inv numBarriers ⟨n, Function.update s.thread i th⟩ := by
  have hall : ∀ k, (Function.update s.thread i th k).passed = (s.thread k).passed :=
    (forall_update_iff s.thread fun k (th : Thread) => th.passed = (s.thread k).passed).mpr
      ⟨hpassed, fun _ _ => rfl⟩
  refine ⟨hn, hlt, forall_update (p := fun _ (th : Thread) => th.waits ≤ numBarriers) hwaits
    h.waits_le, ?_, ?_⟩
  · simpa only [hall] using h.passed
  · simpa only [hall] using h.serial

/-- The thread that calls `pthread_barrier_wait` is counted. -/
theorem count_wait (hi : (s.thread i).pc = .loop) :
    count Thread.waiting (Function.update s.thread i ⟨(s.thread i).rets, .waiting⟩) =
      count Thread.waiting s.thread + 1 := by
  have h := count_update Thread.waiting s.thread i ⟨(s.thread i).rets, .waiting⟩
  simpa [Thread.waiting, hi] using h

theorem Thread.passed_of_loop {th : Thread} (h : th.pc = .loop) :
    th.passed = th.rets ∧ th.waits = th.rets.length := by
  rcases th with ⟨rets, pc⟩
  cases h
  exact ⟨rfl, rfl⟩

theorem Thread.passed_of_waiting {th : Thread} (h : th.pc = .waiting) :
    th.passed = th.rets ∧ th.waits = th.rets.length + 1 := by
  rcases th with ⟨rets, pc⟩
  cases h
  exact ⟨rfl, rfl⟩

/-- The last thread arrives, and all are released. -/
theorem Inv.release (h : Inv numBarriers s) (hi : (s.thread i).pc = .loop)
    (hlt : (s.thread i).rets.length < numBarriers) (hlast : Fintype.card ι ≤ s.arrived + 1)
    (serial : ι) : Inv numBarriers ⟨0, fun k =>
      if k = i ∨ (s.thread k).pc = .waiting then
        ⟨(s.thread k).rets, .released (decide (k = serial))⟩
      else s.thread k⟩ := by
  have hwait : ∀ k, k ≠ i → (s.thread k).pc = .waiting := fun k hk => by
    rw [h.arrived, ← count_wait hi] at hlast
    simpa [hk, Thread.waiting] using forall_of_card_le_count hlast k
  have hall : (fun k => if k = i ∨ (s.thread k).pc = .waiting then
      (⟨(s.thread k).rets, .released (decide (k = serial))⟩ : Thread) else s.thread k) =
      fun k => ⟨(s.thread k).rets, .released (decide (k = serial))⟩ := by
    funext k
    exact if_pos (or_iff_not_imp_left.mpr (hwait k))
  rw [hall]
  have hpassed : ∀ k, (s.thread k).passed = (s.thread k).rets := fun k => by
    rcases eq_or_ne k i with rfl | hk
    · exact (Thread.passed_of_loop hi).1
    · exact (Thread.passed_of_waiting (hwait k hk)).1
  have hrets : ∀ j k, (s.thread j).rets.length = (s.thread k).rets.length := fun j k => by
    rw [← hpassed, ← hpassed]
    exact h.passed j k
  refine ⟨(count_eq_zero_iff.mpr fun _ => rfl).symm, Fintype.card_pos_iff.mpr ⟨i⟩, fun k => ?_,
    fun j k => ?_, fun k j hj => ?_⟩
  · exact Nat.succ_le_of_lt (hrets i k ▸ hlt)
  · simp [Thread.passed, hrets j k]
  · simp only [Thread.passed, List.length_append, List.length_singleton] at hj ⊢
    rcases Nat.lt_or_ge j (s.thread k).rets.length with hlt | hge
    · have hold := h.serial k j (by rwa [hpassed])
      simp only [hpassed] at hold
      have hleft : ∀ l : ι, ((s.thread l).rets ++ [decide (l = serial)])[j]? =
          (s.thread l).rets[j]? :=
        fun l => List.getElem?_append_left (hrets k l ▸ hlt)
      simpa only [hleft] using hold
    · have hright : ∀ l : ι, ((s.thread l).rets ++ [decide (l = serial)])[j]? =
          some (decide (l = serial)) := fun l => by
        have := hrets k l
        rw [show j = (s.thread l).rets.length by omega, List.getElem?_concat_length]
      simp only [hright]
      exact ⟨serial, by simp, fun l hl => by simpa using hl⟩

omit [Fintype ι] in
theorem barrierWait_cases {count : Nat} {serial : ι} (hn : barrierWait count s i serial = some t) :
    (s.arrived + 1 < count ∧
      t = ⟨s.arrived + 1, Function.update s.thread i ⟨(s.thread i).rets, .waiting⟩⟩) ∨
    (count ≤ s.arrived + 1 ∧ t = ⟨0, fun k =>
      if k = i ∨ (s.thread k).pc = .waiting then
        ⟨(s.thread k).rets, .released (decide (k = serial))⟩
      else s.thread k⟩) := by
  simp only [barrierWait] at hn
  split at hn
  · next hlt => exact .inl ⟨hlt, (Option.some.inj hn).symm⟩
  · next hge =>
    rw [Option.ite_none_right_eq_some, Option.some_inj] at hn
    obtain ⟨-, rfl⟩ := hn
    refine .inr ⟨by omega, ?_⟩
    congr 1
    funext k
    rcases eq_or_ne k i with rfl | hk
    · simp
    · simp [hk]

omit [Fintype ι] in
theorem step_cases {count : Nat} {serial : ι} (hn : step count numBarriers s (i, serial) = some t) :
    ((s.thread i).pc = .loop ∧ (s.thread i).rets.length < numBarriers ∧
      barrierWait count s i serial = some t) ∨
    ∃ rets b, s.thread i = ⟨rets, .released b⟩ ∧
      t = ⟨s.arrived, Function.update s.thread i ⟨rets ++ [b], .loop⟩⟩ := by
  simp only [step] at hn
  split at hn
  · next rets hi =>
    rw [Option.ite_none_right_eq_some] at hn
    exact .inl ⟨by rw [hi], by rw [hi]; exact hn.1, hn.2⟩
  · cases hn
  · next rets b hi => exact .inr ⟨rets, b, hi, (Option.some.inj hn).symm⟩

theorem Inv.step {serial : ι} (h : Inv numBarriers s)
    (hn : step (Fintype.card ι) numBarriers s (i, serial) = some t) : Inv numBarriers t := by
  rcases step_cases hn with ⟨hi, hlt, hwait⟩ | ⟨rets, b, hi, rfl⟩
  · rcases barrierWait_cases hwait with ⟨harr, rfl⟩ | ⟨hlast, rfl⟩
    · refine h.update (by rw [count_wait hi, h.arrived]) harr hlt ?_
      exact (Thread.passed_of_loop hi).1.symm
    · exact h.release hi hlt hlast serial
  · have hwaits := h.waits_le i
    rw [hi] at hwaits
    refine h.update ?_ h.arrived_lt (by simpa [Thread.waits] using hwaits) (by rw [hi]; rfl)
    rw [h.arrived, count_update_of_eq (by rw [hi]; rfl)]

def State.steps (s : State ι) : Nat := tally (fun _ th => th.steps) s.thread

theorem steps_of_step {count : Nat} {serial : ι}
    (hn : PthreadBarrier.step count numBarriers s (i, serial) = some t) :
    t.steps = s.steps + 1 := by
  have hsteps (th : Thread) (hth : th.steps = (s.thread i).steps + 1) :
      tally (fun _ th => th.steps) (Function.update s.thread i th) = s.steps + 1 := by
    have htally := tally_update (fun _ (th : Thread) => th.steps) s.thread i th
    rw [State.steps]
    omega
  rcases step_cases hn with ⟨hi, -, hwait⟩ | ⟨rets, b, hi, rfl⟩
  · have hth : Thread.steps ⟨(s.thread i).rets, .waiting⟩ = (s.thread i).steps + 1 := by
      simp only [Thread.steps, (Thread.passed_of_loop hi).2]
      rfl
    rcases barrierWait_cases hwait with ⟨-, rfl⟩ | ⟨-, rfl⟩
    · exact hsteps _ hth
    · rw [← hsteps _ hth]
      refine Finset.sum_congr rfl fun k _ => ?_
      rcases eq_or_ne k i with rfl | hk
      · simp [Thread.steps, Thread.waits]
      · simp only [hk, false_or, Function.update_of_ne hk]
        split
        · next hpc =>
          simp only [Thread.steps, (Thread.passed_of_waiting hpc).2]
          rfl
        · rfl
  · refine hsteps _ ?_
    rw [hi]
    simp [Thread.steps, Thread.waits]
    omega

/-- All threads have returned. -/
def State.Done (numBarriers : Nat) (s : State ι) : Prop :=
  ∀ i, (s.thread i).rets.length = numBarriers ∧ (s.thread i).pc = .loop

omit [DecidableEq ι] in
theorem Inv.steps_le (h : Inv numBarriers s) : s.steps ≤ Fintype.card ι * (2 * numBarriers) := by
  refine tally_le_card_mul fun i => ?_
  have := h.waits_le i
  have := (s.thread i).rets_le
  have := (s.thread i).passed_le
  simp only [Thread.steps]
  omega

omit [DecidableEq ι] in
theorem State.Done.steps_eq (h : s.Done numBarriers) :
    s.steps = Fintype.card ι * (2 * numBarriers) := by
  have hsteps : ∀ i, (s.thread i).steps = 2 * numBarriers := fun i => by
    obtain ⟨hrets, hpc⟩ := h i
    rw [Thread.steps, (Thread.passed_of_loop hpc).2, hrets]
    omega
  simp [State.steps, tally, hsteps]

/-- If nobody can run, then either all have returned or all wait, but never all wait. -/
theorem Inv.done_or_step (h : Inv numBarriers s) : s.Done numBarriers ∨
    ∃ a t, PthreadBarrier.step (Fintype.card ι) numBarriers s a = some t := by
  refine or_iff_not_imp_right.mpr fun hstuck => ?_
  have hpc : ∀ i, (s.thread i).pc = .waiting ∨
      ((s.thread i).pc = .loop ∧ (s.thread i).rets.length = numBarriers) := fun i => by
    rcases hth : s.thread i with ⟨rets, _ | _ | b⟩
    · refine .inr ⟨rfl, ?_⟩
      have hle := h.waits_le i
      rw [hth] at hle
      refine hle.antisymm (Nat.not_lt.mp fun hlt => hstuck ⟨(i, i), ?_⟩)
      have hlt : rets.length < numBarriers := hlt
      simp only [PthreadBarrier.step, hth, if_pos hlt, barrierWait]
      split
      · exact ⟨_, rfl⟩
      · rw [if_pos (by simp)]
        exact ⟨_, rfl⟩
    · exact .inl rfl
    · exact absurd ⟨(i, i), by simp [PthreadBarrier.step, hth]⟩ hstuck
  by_contra hdone
  have hwaiting : ∀ i, (s.thread i).pc = .waiting := by
    intro i
    refine (hpc i).resolve_right fun ⟨hloop, hlen⟩ => hdone fun k => ?_
    rcases hpc k with hk | hk
    · have hlt := h.waits_le k
      have heq := h.passed i k
      rw [(Thread.passed_of_waiting hk).2] at hlt
      rw [(Thread.passed_of_loop hloop).1, (Thread.passed_of_waiting hk).1] at heq
      omega
    · exact ⟨hk.2, hk.1⟩
  have hcard := h.arrived_lt
  rw [h.arrived, count_of_forall fun i => by simp [Thread.waiting, hwaiting i]] at hcard
  exact lt_irrefl _ hcard

/-- Nobody returns from the barrier before all threads have called it as often, each time exactly
one thread gets `PTHREAD_BARRIER_SERIAL_THREAD`, and all threads come through. -/
theorem barriers_passed (ι : Type*) [Fintype ι] [DecidableEq ι] [Nonempty ι] (numBarriers : Nat) :
    (machine ι (Fintype.card ι) numBarriers).EndsIn .init (Fintype.card ι * (2 * numBarriers))
      (fun s => s.Done numBarriers ∧ ∀ j < numBarriers, ∃! i, (s.thread i).rets[j]? = some true) ∧
    ∀ s, (machine ι (Fintype.card ι) numBarriers).Reachable .init s →
      ∀ i k, (s.thread i).rets.length ≤ (s.thread k).waits := by
  have hinit : Fintype.card ι * (2 * numBarriers) - (State.init : State ι).steps =
      Fintype.card ι * (2 * numBarriers) := by
    rw [show (State.init : State ι).steps = 0 from tally_eq_zero fun _ => rfl, Nat.sub_zero]
  refine ⟨?_, fun s hs i k => ?_⟩
  · rw [← hinit]
    refine .of_rank (I := Inv numBarriers)
      (r := fun s => Fintype.card ι * (2 * numBarriers) - s.steps)
      (fun _ _ _ h hn => h.step hn) (fun s a t h hn => ?_) (fun s h => ?_) inv_init
    · have hle := (h.step hn).steps_le
      rw [steps_of_step hn] at hle ⊢
      omega
    · refine h.done_or_step.imp_left fun hdone => ⟨⟨hdone, fun j hj => ?_⟩, ?_⟩
      · have hpassed : ∀ i, (s.thread i).passed = (s.thread i).rets :=
          fun i => (Thread.passed_of_loop (hdone i).2).1
        obtain ⟨i⟩ := ‹Nonempty ι›
        have := h.serial i j (by rw [hpassed, (hdone i).1]; exact hj)
        simpa only [hpassed] using this
      · rw [hdone.steps_eq, Nat.sub_self]
  · have h : Inv numBarriers s := hs.invariant inv_init fun _ _ _ h _ hn => h.step hn
    exact ((s.thread i).rets_le.trans (h.passed i k).le).trans (s.thread k).passed_le

/-- Five threads that meet three times. -/
theorem barriers_passed_five : (machine (Fin 5) 5 3).EndsIn .init 30 fun s =>
    s.Done 3 ∧ ∀ j < 3, ∃! i, (s.thread i).rets[j]? = some true := by
  simpa using (barriers_passed (Fin 5) 3).1

end Tlpi.PthreadBarrier
