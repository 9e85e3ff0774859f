import Tlpi.Lib.Machine
import Tlpi.Lib.Monitor
import Tlpi.Lib.Tally

/-!
# Joining whichever thread terminates (`ch29-threads/thread_multijoin.cpp`)

The main thread creates any number of threads and joins each one after it has terminated. A thread
marks itself as terminated under `threadMutex` and signals `threadDied` after it has released the
mutex. `pthread_cond_wait` releases the mutex and waits in one step; it may wake up without a
signal, and has to take the mutex again. A signal that finds nobody waiting is lost.
-/

namespace Tlpi.MultiJoin

open Function

variable {N : Nat}

/-- `enum tstate` -/
inductive TState
  | TS_ALIVE
  | TS_TERMINATED
  | TS_JOINED
  deriving DecidableEq

/-- Where a thread is in `threadFunc`. -/
inductive TPc
  | unborn
  /-- `sleep(thread[idx].sleepTime)`, then `pthread_mutex_lock(&threadMutex)`. -/
  | lock
  /-- `numUnjoined++` -/
  | incr
  /-- `thread[idx].state = TS_TERMINATED` -/
  | mark
  | unlock
  /-- `pthread_cond_signal(&threadDied)` -/
  | signal
  | returned
  deriving DecidableEq

/-- Where the main thread is. -/
inductive MPc (N : Nat)
  /-- `pthread_create` of thread `idx`, or the end of that loop. -/
  | create (idx : Nat)
  /-- `while (numLive > 0)` -/
  | test
  | lock
  /-- `while (numUnjoined == 0)` -/
  | check
  /-- In `pthread_cond_wait`, waiting for a signal. -/
  | waiting
  /-- In `pthread_cond_wait`, woken up and waiting for the mutex. -/
  | relock
  /-- `thread[idx].state == TS_TERMINATED`, or the end of that loop. -/
  | scan (idx : Nat)
  /-- `pthread_join(thread[idx].tid, NULL)` -/
  | join (idx : Fin N)
  /-- `thread[idx].state = TS_JOINED` -/
  | joined (idx : Fin N)
  /-- `numLive--` -/
  | decLive (idx : Fin N)
  /-- `numUnjoined--` -/
  | decUnjoined (idx : Fin N)
  | unlock
  /-- `exit(EXIT_SUCCESS)` -/
  | exited
  /-- Terminated by `errExitEN`. -/
  | failed (msg : String)
  deriving DecidableEq

/-- A thread and its entry of the array `thread`. -/
structure Thread where
  pc : TPc
  state : TState
  /-- How often it was joined. -/
  joins : Nat
  deriving DecidableEq

structure State (N : Nat) where
  thread : Fin N → Thread
  main : MPc N
  /-- The owner of `threadMutex`. -/
  mutex : Option (Agent (Fin N))
  totThreads : Nat
  numLive : Int
  numUnjoined : Int

inductive Label (N : Nat)
  /-- A step of thread `i`. -/
  | thread (i : Fin N)
  | main
  /-- `pthread_create` fails. -/
  | createFails
  /-- The main thread wakes up without a signal. -/
  | spurious
  deriving DecidableEq

namespace State

def setThread (s : State N) (i : Fin N) (th : Thread) : State N :=
  { s with thread := update s.thread i th }

/-- Thread `i` moves on to `pc`. -/
def goto (s : State N) (i : Fin N) (pc : TPc) : State N :=
  s.setThread i { s.thread i with pc := pc }

/-- All entries are 0 (`calloc`), and no thread exists. -/
def init : State N :=
  ⟨fun _ => ⟨.unborn, .TS_ALIVE, 0⟩, .create 0, none, 0, 0, 0⟩

end State

/-- One step of thread `i`. -/
def stepThread (s : State N) (i : Fin N) : Option (State N) :=
  match (s.thread i).pc with
  | .unborn => none
  | .lock =>
    if s.mutex = none then some { s.goto i .incr with mutex := some (.worker i) } else none
  | .incr => some { s.goto i .mark with numUnjoined := s.numUnjoined + 1 }
  | .mark => some (s.setThread i { s.thread i with pc := .unlock, state := .TS_TERMINATED })
  | .unlock => some { s.goto i .signal with mutex := none }
  | .signal =>
    some { s.goto i .returned with main := if s.main = .waiting then .relock else s.main }
  | .returned => none

/-- One step of the main thread. -/
def stepMain (s : State N) : Option (State N) :=
  match s.main with
  | .create idx =>
    if h : idx < N then
      some { s.setThread ⟨idx, h⟩ { s.thread ⟨idx, h⟩ with pc := .lock, state := .TS_ALIVE } with
        main := .create (idx + 1) }
    else some { s with main := .test, totThreads := N, numLive := N }
  | .test => some { s with main := if 0 < s.numLive then .lock else .exited }
  | .lock => if s.mutex = none then some { s with main := .check, mutex := some .main } else none
  | .check =>
    if s.numUnjoined = 0 then some { s with main := .waiting, mutex := none }
    else some { s with main := .scan 0 }
  | .waiting => none
  | .relock =>
    if s.mutex = none then some { s with main := .check, mutex := some .main } else none
  | .scan idx =>
    if idx < s.totThreads then
      if h : idx < N then
        if (s.thread ⟨idx, h⟩).state = .TS_TERMINATED then some { s with main := .join ⟨idx, h⟩ }
        else some { s with main := .scan (idx + 1) }
      else none
    else some { s with main := .unlock }
  | .join i =>
    if (s.thread i).pc = .returned then
      some { s.setThread i { s.thread i with joins := (s.thread i).joins + 1 } with
        main := .joined i }
    else none
  | .joined i =>
    some { s.setThread i { s.thread i with state := .TS_JOINED } with main := .decLive i }
  | .decLive i => some { s with main := .decUnjoined i, numLive := s.numLive - 1 }
  | .decUnjoined i => some { s with main := .scan (i + 1), numUnjoined := s.numUnjoined - 1 }
  | .unlock => some { s with main := .test, mutex := none }
  | .exited | .failed _ => none

/-- The process has terminated. -/
def MPc.ended : MPc N → Bool
  | .exited | .failed _ => true
  | _ => false

def step (s : State N) : Label N → Option (State N)
  | .thread i => if s.main.ended then none else stepThread s i
  | .main => stepMain s
  | .createFails =>
    match s.main with
    | .create idx => if idx < N then some { s with main := .failed "pthread_create" } else none
    | _ => none
  | .spurious => if s.main = .waiting then some { s with main := .relock } else none

def machine (N : Nat) : Machine (State N) (Label N) := ⟨step⟩

/-! ## The invariant -/

/-- The thread holds `threadMutex`. -/
def TPc.inside : TPc → Bool
  | .incr | .mark | .unlock => true
  | _ => false

/-- The thread has still to send its signal. -/
def TPc.willSignal : TPc → Bool
  | .mark | .unlock | .signal => true
  | _ => false

/-- The thread has not yet marked itself as terminated. -/
def TPc.early : TPc → Bool
  | .unborn | .lock | .incr | .mark => true
  | _ => false

/-- The main thread holds `threadMutex`. -/
def MPc.inside : MPc N → Bool
  | .check | .scan _ | .join _ | .joined _ | .decLive _ | .decUnjoined _ | .unlock => true
  | _ => false

/-- The creation loop is over. -/
def MPc.started : MPc N → Bool
  | .create _ | .failed _ => false
  | _ => true

/-- The main thread has set an entry to `TS_JOINED` and not yet adjusted `numLive`. -/
def MPc.liveLag : MPc N → Nat
  | .decLive _ => 1
  | _ => 0

/-- The main thread has set an entry to `TS_JOINED` and not yet adjusted `numUnjoined`. -/
def MPc.unjoinedLag : MPc N → Nat
  | .decLive _ | .decUnjoined _ => 1
  | _ => 0

def Thread.inside (th : Thread) : Bool := th.pc.inside

def Thread.terminated (th : Thread) : Bool := th.state = .TS_TERMINATED

def Thread.unjoined (th : Thread) : Bool := th.state ≠ .TS_JOINED

/-- The thread is between its two updates. -/
def Thread.marking (th : Thread) : Bool := th.pc = .mark

/-- The entry of a thread fits the place where it is. -/
structure Thread.Ok (th : Thread) : Prop where
  alive : th.state = .TS_ALIVE ↔ th.pc.early
  joined : th.state = .TS_JOINED → th.pc = .returned

structure Inv (s : State N) : Prop where
  excl : Excl s.mutex s.main.inside fun i => (s.thread i).inside
  ok : ∀ i, (s.thread i).Ok
  numUnjoined : s.numUnjoined =
    count Thread.terminated s.thread + count Thread.marking s.thread + s.main.unjoinedLag
  numLive : s.main.started → s.numLive = count Thread.unjoined s.thread + s.main.liveLag
  totThreads : s.main.started → s.totThreads = N
  joins : ∀ i, (s.thread i).joins =
    (if (s.thread i).state = .TS_JOINED then 1 else 0) + if s.main = .joined i then 1 else 0
  cursor : ∀ i, s.main = .join i ∨ s.main = .joined i → (s.thread i).state = .TS_TERMINATED
  joined : ∀ i, s.main = .joined i → (s.thread i).pc = .returned
  born : s.main.started → ∀ i, (s.thread i).pc ≠ .unborn
  unborn : ∀ idx i, s.main = .create idx → ((s.thread i).pc = .unborn ↔ idx ≤ i)
  /-- No wake-up is lost. -/
  waiting : s.main = .waiting → s.numUnjoined = 0 ∨ ∃ i, (s.thread i).pc.willSignal
  exited : s.main = .exited → count Thread.unjoined s.thread = 0
  unjoined : s.main.started = false → ∀ i, (s.thread i).state ≠ .TS_JOINED

section

variable {s t : State N} {i : Fin N} {th : Thread}

theorem inv_init : Inv (State.init (N := N)) := by
  have hzero {p : Thread → Bool} (hp : p ⟨.unborn, .TS_ALIVE, 0⟩ = false) :
      count p (fun _ : Fin N => (⟨.unborn, .TS_ALIVE, 0⟩ : Thread)) = 0 :=
    count_eq_zero_iff.mpr fun _ => hp
  refine ⟨⟨?_, fun i => ?_⟩, fun i => ⟨?_, nofun⟩, ?_, nofun, nofun, fun i => rfl, nofun, nofun,
    nofun, fun idx i h => ?_, nofun, nofun, nofun⟩
  · simp [State.init, MPc.inside]
  · simp [State.init, Thread.inside, TPc.inside]
  · simp [State.init, TPc.early]
  · simp [State.init, hzero, Thread.terminated, Thread.marking, MPc.unjoinedLag]
  · cases h
    simp [State.init]

/-- The step rule for a thread that is not yet done. -/
theorem Inv.setThread (h : Inv s) {mutex : Option (Agent (Fin N))} {numUnjoined : Int}
    (hexcl : Excl mutex s.main.inside fun j => (update s.thread i th j).inside) (hok : th.Ok)
    (hjoins : th.joins = (s.thread i).joins) (hpc : (s.thread i).pc ≠ .unborn)
    (hpc' : th.pc ≠ .unborn) (hret : (s.thread i).pc ≠ .returned) (hstate : th.state ≠ .TS_JOINED)
    (hterm : (s.thread i).state = .TS_TERMINATED → th.state = .TS_TERMINATED)
    (hnum : numUnjoined + (s.thread i).terminated.toNat + (s.thread i).marking.toNat =
      s.numUnjoined + th.terminated.toNat + th.marking.toNat)
    (hwait : s.main = .waiting → (numUnjoined = s.numUnjoined ∨ th.pc.willSignal) ∧
      ((s.thread i).pc.willSignal → th.pc.willSignal)) :
    Inv { s with
      thread := update s.thread i th
      mutex := mutex
      numUnjoined := numUnjoined } := by
  have hstate' : (s.thread i).state ≠ .TS_JOINED := fun hj => hret ((h.ok i).joined hj)
  have hlive : count Thread.unjoined (update s.thread i th) = count Thread.unjoined s.thread :=
    count_update_of_eq (by simp [Thread.unjoined, hstate, hstate'])
  refine ⟨hexcl, fun j => ?_, ?_, fun hm => ?_, h.totThreads, fun j => ?_, fun j hj => ?_,
    fun j hj => ?_, fun hm j => ?_, fun idx j hj => ?_, fun hm => ?_, fun hm => ?_, fun hm j => ?_⟩
  · exact forall_update (p := fun _ (th : Thread) => th.Ok) hok h.ok j
  · have h1 := count_update Thread.terminated s.thread i th
    have h2 := count_update Thread.marking s.thread i th
    have h3 := h.numUnjoined
    simp only
    omega
  · rw [hlive]
    exact h.numLive hm
  · rcases eq_or_ne j i with rfl | hji
    · simpa [hstate, hstate', hjoins] using h.joins j
    · simpa [hji] using h.joins j
  · rcases eq_or_ne j i with rfl | hji
    · simpa using hterm (h.cursor j hj)
    · simpa [hji] using h.cursor j hj
  · rcases eq_or_ne j i with rfl | hji
    · exact absurd (h.joined j hj) hret
    · simpa [hji] using h.joined j hj
  · exact forall_update (p := fun _ (th : Thread) => th.pc ≠ .unborn) hpc' (h.born hm) j
  · rcases eq_or_ne j i with rfl | hji
    · simpa [hpc, hpc'] using h.unborn idx j hj
    · simpa [hji] using h.unborn idx j hj
  · obtain ⟨hn, hw⟩ := hwait hm
    exact signalled_update (p := fun th : Thread => th.pc.willSignal) (h.waiting hm) hn hw
  · rw [hlive]
    exact h.exited hm
  · exact forall_update (p := fun _ (th : Thread) => th.state ≠ .TS_JOINED) hstate (h.unjoined hm) j

/-- The main thread wakes up. -/
theorem Inv.wake (h : Inv s) (hm : s.main = .waiting) : Inv { s with main := .relock } := by
  have hexcl := h.excl
  have hnum := h.numUnjoined
  have hlive := h.numLive
  have htot := h.totThreads
  have hjoins := h.joins
  have hborn := h.born
  simp only [hm] at hexcl hnum hlive htot hjoins hborn
  refine ⟨hexcl, h.ok, hnum, fun _ => hlive rfl, fun _ => htot rfl, fun j => ?_, nofun, nofun,
    fun _ => hborn rfl, nofun, nofun, nofun, nofun⟩
  simpa using hjoins j

theorem Inv.stepThread (h : Inv s) (hn : stepThread s i = some t) : Inv t := by
  have hearly (he : (s.thread i).pc.early) : (s.thread i).state = .TS_ALIVE :=
    (h.ok i).alive.mpr he
  have hlate (he : (s.thread i).pc.early = false) (hr : (s.thread i).pc ≠ .returned) :
      (s.thread i).state = .TS_TERMINATED := by
    cases hst : (s.thread i).state with
    | TS_ALIVE => simp [(h.ok i).alive.mp hst] at he
    | TS_TERMINATED => rfl
    | TS_JOINED => exact absurd ((h.ok i).joined hst) hr
  cases hpc : (s.thread i).pc with
  | unborn | returned => simp [MultiJoin.stepThread, hpc] at hn
  | lock =>
    simp only [MultiJoin.stepThread, hpc, Option.ite_none_right_eq_some, Option.some.injEq] at hn
    obtain ⟨hmu, rfl⟩ := hn
    have hstate := hearly (by simp [hpc, TPc.early])
    have hexcl := h.excl
    rw [hmu] at hexcl
    exact h.setThread (hexcl.lockWorker_of rfl i) ⟨by simp [hstate, TPc.early], by simp [hstate]⟩
      rfl (by simp [hpc]) nofun (by simp [hpc]) (by simp [hstate]) (by simp [hstate])
      (by simp [Thread.terminated, Thread.marking, hpc, State.goto, State.setThread])
      (by simp [hpc, TPc.willSignal, State.goto, State.setThread])
  | incr =>
    simp only [MultiJoin.stepThread, hpc, Option.some.injEq] at hn
    subst hn
    have hstate := hearly (by simp [hpc, TPc.early])
    exact h.setThread (h.excl.stepWorker (by simp [Thread.inside, hpc, TPc.inside]))
      ⟨by simp [hstate, TPc.early], by simp [hstate]⟩ rfl (by simp [hpc]) nofun (by simp [hpc])
      (by simp [hstate]) (by simp [hstate])
      (by simp [Thread.terminated, Thread.marking, hpc, hstate])
      (by simp [TPc.willSignal])
  | mark =>
    simp only [MultiJoin.stepThread, hpc, Option.some.injEq] at hn
    subst hn
    have hstate := hearly (by simp [hpc, TPc.early])
    exact h.setThread (h.excl.stepWorker (by simp [Thread.inside, hpc, TPc.inside]))
      ⟨by simp [TPc.early], by simp⟩ rfl (by simp [hpc]) nofun (by simp [hpc])
      (by simp) (by simp)
      (by simp [Thread.terminated, Thread.marking, hpc, hstate])
      (by simp [TPc.willSignal])
  | unlock =>
    simp only [MultiJoin.stepThread, hpc, Option.some.injEq] at hn
    subst hn
    have hstate := hlate (by simp [hpc, TPc.early]) (by simp [hpc])
    exact h.setThread
      (h.excl.unlockWorker_of (by simp [Thread.inside, hpc, TPc.inside]) rfl)
      ⟨by simp [hstate, TPc.early], by simp [hstate]⟩ rfl (by simp [hpc]) nofun (by simp [hpc])
      (by simp [hstate]) (by simp [hstate])
      (by simp [Thread.terminated, Thread.marking, hpc, State.goto, State.setThread])
      (by simp [TPc.willSignal])
  | signal =>
    simp only [MultiJoin.stepThread, hpc, Option.some.injEq] at hn
    subst hn
    have hstate := hlate (by simp [hpc, TPc.early]) (by simp [hpc])
    have hwoken : Inv { s with main := if s.main = .waiting then .relock else s.main } := by
      split
      · exact h.wake ‹_›
      · exact h
    exact hwoken.setThread (hwoken.excl.stepWorker (by simp [Thread.inside, hpc, TPc.inside]))
      ⟨by simp [hstate, TPc.early], by simp [hstate]⟩ rfl (by simp [hpc]) nofun (by simp [hpc])
      (by simp [hstate]) (by simp [hstate])
      (by simp [Thread.terminated, Thread.marking, hpc, State.goto, State.setThread])
      (fun hm => by split at hm <;> simp_all)

/-- The step rule for the main thread where it goes from `m₀` to `m` and leaves the threads
alone. -/
theorem Inv.goMain (h : Inv s) {m₀ m : MPc N} {mutex : Option (Agent (Fin N))}
    {numLive numUnjoined : Int} (hm₀ : s.main = m₀) (hs : m₀.started) (hm : m.started)
    (hexcl : Excl mutex m.inside fun i => (s.thread i).inside)
    (hlive : numLive + m₀.liveLag = s.numLive + m.liveLag)
    (hnum : numUnjoined + m₀.unjoinedLag = s.numUnjoined + m.unjoinedLag)
    (hj : ∀ i, m₀ ≠ .joined i) (hj' : ∀ i, m ≠ .joined i)
    (hcur : ∀ i, m = .join i → (s.thread i).state = .TS_TERMINATED)
    (hwait : m = .waiting → numUnjoined = 0)
    (hexit : m = .exited → count Thread.unjoined s.thread = 0) :
    Inv { s with
      main := m
      mutex := mutex
      numLive := numLive
      numUnjoined := numUnjoined } := by
  subst hm₀
  refine ⟨hexcl, h.ok, ?_, fun _ => ?_, fun _ => h.totThreads hs, fun i => ?_, fun i hi => ?_,
    fun i hi => absurd hi (hj' i), fun _ => h.born hs, ?_, fun hm => .inl (hwait hm), hexit,
    fun hm' => by simp [hm] at hm'⟩
  · have hn := h.numUnjoined
    simp only
    omega
  · have hl := h.numLive hs
    simp only
    omega
  · simpa [hj i, hj' i] using h.joins i
  · rcases hi with hi | hi
    · exact hcur i hi
    · exact absurd hi (hj' i)
  · rintro idx i rfl
    cases hm

theorem Inv.create {idx : Nat} (h : Inv s) (hm : s.main = .create idx) (hidx : idx < N) :
    Inv { s with
      thread := update s.thread ⟨idx, hidx⟩ { s.thread ⟨idx, hidx⟩ with
        pc := .lock
        state := .TS_ALIVE }
      main := .create (idx + 1) } := by
  have hpc : (s.thread ⟨idx, hidx⟩).pc = .unborn := (h.unborn idx _ hm).mpr le_rfl
  have hstate : (s.thread ⟨idx, hidx⟩).state = .TS_ALIVE :=
    (h.ok _).alive.mpr (by simp [hpc, TPc.early])
  have hexcl := h.excl
  have hnum := h.numUnjoined
  rw [hm] at hexcl hnum
  refine ⟨hexcl.stepWorker (by simp [Thread.inside, hpc, TPc.inside]), fun j => ?_, ?_, nofun,
    nofun, fun j => ?_, nofun, nofun, nofun, fun k j hk => ?_, nofun, nofun, fun _ j => ?_⟩
  · rcases eq_or_ne j ⟨idx, hidx⟩ with rfl | hj
    · simpa using Thread.Ok.mk (by simp [TPc.early]) (by simp)
    · simpa [hj] using h.ok j
  · rw [hnum, count_update_of_eq (by simp [Thread.terminated, hstate]),
      count_update_of_eq (by simp [Thread.marking, hpc])]
    rfl
  · rcases eq_or_ne j ⟨idx, hidx⟩ with rfl | hj
    · simpa [hstate, hm] using h.joins ⟨idx, hidx⟩
    · simpa [hj, hm] using h.joins j
  · cases hk
    rcases eq_or_ne j ⟨idx, hidx⟩ with rfl | hj
    · simp
    · have hne : (j : Nat) ≠ idx := fun h => hj (Fin.ext h)
      simp only [update_of_ne hj, h.unborn idx j hm]
      omega
  · rcases eq_or_ne j ⟨idx, hidx⟩ with rfl | hj
    · simp
    · simpa [hj] using h.unjoined (by simp [hm, MPc.started]) j

/-- The creation loop is over: `totThreads` and `numLive` are set. -/
theorem Inv.endCreate {idx : Nat} (h : Inv s) (hm : s.main = .create idx) (hidx : N ≤ idx) :
    Inv { s with main := .test, totThreads := N, numLive := N } := by
  have hjoined := h.unjoined (by simp [hm, MPc.started])
  have hexcl := h.excl
  have hnum := h.numUnjoined
  rw [hm] at hexcl hnum
  refine ⟨hexcl, h.ok, hnum, fun _ => ?_, fun _ => rfl, fun i => ?_, nofun, nofun,
    fun _ i hi => ?_, nofun, nofun, nofun, nofun⟩
  · rw [count_of_forall fun i => by simp [Thread.unjoined, hjoined i], Fintype.card_fin]
    simp [MPc.liveLag]
  · simpa [hm] using h.joins i
  · have hle := (h.unborn idx i hm).mp hi
    omega

theorem Inv.join (h : Inv s) (hm : s.main = .join i) (hret : (s.thread i).pc = .returned)
    (hpc : th.pc = .returned) (hst : th.state = .TS_TERMINATED)
    (hjoins : th.joins = (s.thread i).joins + 1) :
    Inv { s with thread := update s.thread i th, main := .joined i } := by
  have hterm := h.cursor i (.inl hm)
  have hexcl := h.excl
  have hnum := h.numUnjoined
  have hlive := h.numLive
  have htot := h.totThreads
  have hborn := h.born
  rw [hm] at hexcl hnum hlive htot hborn
  have hterm' : count Thread.terminated (update s.thread i th) = count Thread.terminated s.thread :=
    count_update_of_eq (by simp [Thread.terminated, hst, hterm])
  have hmark' : count Thread.marking (update s.thread i th) = count Thread.marking s.thread :=
    count_update_of_eq (by simp [Thread.marking, hpc, hret])
  have hlive' : count Thread.unjoined (update s.thread i th) = count Thread.unjoined s.thread :=
    count_update_of_eq (by simp [Thread.unjoined, hst, hterm])
  refine ⟨hexcl.stepWorker (by simp [Thread.inside, hpc, hret]), fun j => ?_, ?_, fun _ => ?_,
    fun _ => htot rfl, fun j => ?_, fun j hj => ?_, fun j hj => ?_, fun _ j => ?_, nofun, nofun,
    nofun, nofun⟩
  · exact forall_update (p := fun _ (th : Thread) => th.Ok)
      ⟨by simp [hst, hpc, TPc.early], fun _ => hpc⟩ h.ok j
  · rw [hterm', hmark']
    exact hnum
  · rw [hlive']
    exact hlive rfl
  · rcases eq_or_ne j i with rfl | hj
    · simpa [hst, hterm, hm, hjoins] using h.joins j
    · simpa [hj, hj.symm, hm] using h.joins j
  · obtain rfl : i = j := by simpa using hj
    simpa using hst
  · obtain rfl : i = j := by simpa using hj
    simpa using hpc
  · exact forall_update (p := fun _ (th : Thread) => th.pc ≠ .unborn) (by simp [hpc]) (hborn rfl) j

theorem Inv.setJoined (h : Inv s) (hm : s.main = .joined i) (hpc : th.pc = .returned)
    (hst : th.state = .TS_JOINED) (hjoins : th.joins = (s.thread i).joins) :
    Inv { s with thread := update s.thread i th, main := .decLive i } := by
  have hterm := h.cursor i (.inr hm)
  have hret := h.joined i hm
  have hexcl := h.excl
  have hnum := h.numUnjoined
  have hlive := h.numLive
  have htot := h.totThreads
  have hborn := h.born
  rw [hm] at hexcl hnum hlive htot hborn
  have hterm' := count_update Thread.terminated s.thread i th
  have hlive' := count_update Thread.unjoined s.thread i th
  have hmark' : count Thread.marking (update s.thread i th) = count Thread.marking s.thread :=
    count_update_of_eq (by simp [Thread.marking, hpc, hret])
  rw [show th.terminated = false by simp [Thread.terminated, hst],
    show (s.thread i).terminated = true by simp [Thread.terminated, hterm]] at hterm'
  rw [show th.unjoined = false by simp [Thread.unjoined, hst],
    show (s.thread i).unjoined = true by simp [Thread.unjoined, hterm]] at hlive'
  simp only [Bool.toNat_true, Bool.toNat_false, MPc.unjoinedLag, MPc.liveLag] at *
  refine ⟨hexcl.stepWorker (by simp [Thread.inside, hpc, hret]), fun j => ?_, ?_, fun _ => ?_,
    fun _ => htot rfl, fun j => ?_, nofun, nofun, fun _ j => ?_, nofun, nofun, nofun, nofun⟩
  · exact forall_update (p := fun _ (th : Thread) => th.Ok)
      ⟨by simp [hst, hpc, TPc.early], fun _ => hpc⟩ h.ok j
  · simp only [MPc.unjoinedLag]
    omega
  · have hl := hlive rfl
    simp only [MPc.liveLag]
    omega
  · rcases eq_or_ne j i with rfl | hj
    · simpa [hst, hterm, hm, hjoins] using h.joins j
    · simpa [hj, hj.symm, hm] using h.joins j
  · exact forall_update (p := fun _ (th : Thread) => th.pc ≠ .unborn) (by simp [hpc]) (hborn rfl) j

theorem Inv.stepMain (h : Inv s) (hn : stepMain s = some t) : Inv t := by
  have hexcl := h.excl
  cases hm : s.main with
  | create idx =>
    simp only [MultiJoin.stepMain, hm] at hn
    split at hn
    · cases hn
      exact h.create hm ‹_›
    · cases hn
      exact h.endCreate hm (Nat.le_of_not_lt ‹_›)
  | test =>
    simp only [MultiJoin.stepMain, hm, Option.some.injEq] at hn
    subst hn
    rw [hm] at hexcl
    split
    · exact h.goMain hm rfl rfl hexcl rfl rfl nofun nofun nofun nofun nofun
    · refine h.goMain hm rfl rfl hexcl rfl rfl nofun nofun nofun nofun fun _ => ?_
      have hlive := h.numLive (by simp [hm, MPc.started])
      simp only [hm, MPc.liveLag] at hlive
      omega
  | lock | relock =>
    simp only [MultiJoin.stepMain, hm, Option.ite_none_right_eq_some, Option.some.injEq] at hn
    obtain ⟨hmu, rfl⟩ := hn
    rw [hmu] at hexcl
    exact h.goMain hm rfl rfl hexcl.lockMain rfl rfl nofun nofun nofun nofun nofun
  | check =>
    simp only [MultiJoin.stepMain, hm] at hn
    rw [hm] at hexcl
    split at hn <;> cases hn
    · exact h.goMain hm rfl rfl (Excl.unlockMain hexcl) rfl rfl nofun nofun nofun
        (fun _ => ‹_›) nofun
    · exact h.goMain hm rfl rfl hexcl rfl rfl nofun nofun nofun nofun nofun
  | waiting => simp [MultiJoin.stepMain, hm] at hn
  | scan idx =>
    simp only [MultiJoin.stepMain, hm] at hn
    rw [hm] at hexcl
    split at hn
    · split at hn
      · split at hn <;> cases hn
        · exact h.goMain hm rfl rfl hexcl rfl rfl nofun nofun (by rintro _ ⟨⟩; assumption) nofun
            nofun
        · exact h.goMain hm rfl rfl hexcl rfl rfl nofun nofun nofun nofun nofun
      · cases hn
    · cases hn
      exact h.goMain hm rfl rfl hexcl rfl rfl nofun nofun nofun nofun nofun
  | join i =>
    simp only [MultiJoin.stepMain, hm, Option.ite_none_right_eq_some, Option.some.injEq] at hn
    obtain ⟨hret, rfl⟩ := hn
    exact h.join hm hret hret (h.cursor i (.inl hm)) rfl
  | joined i =>
    simp only [MultiJoin.stepMain, hm, Option.some.injEq] at hn
    subst hn
    exact h.setJoined hm (h.joined i hm) rfl rfl
  | decLive i =>
    simp only [MultiJoin.stepMain, hm, Option.some.injEq] at hn
    subst hn
    rw [hm] at hexcl
    exact h.goMain hm rfl rfl hexcl (by simp [MPc.liveLag]) rfl nofun nofun nofun nofun nofun
  | decUnjoined i =>
    simp only [MultiJoin.stepMain, hm, Option.some.injEq] at hn
    subst hn
    rw [hm] at hexcl
    exact h.goMain hm rfl rfl hexcl rfl (by simp [MPc.unjoinedLag]) nofun nofun nofun nofun nofun
  | unlock =>
    simp only [MultiJoin.stepMain, hm, Option.some.injEq] at hn
    subst hn
    rw [hm] at hexcl
    exact h.goMain hm rfl rfl (Excl.unlockMain hexcl) rfl rfl nofun nofun nofun nofun nofun
  | exited | failed msg => simp [MultiJoin.stepMain, hm] at hn

theorem inv_step {a : Label N} (h : Inv s) (hn : step s a = some t) : Inv t := by
  cases a with
  | thread i =>
    simp only [step, Option.ite_none_left_eq_some] at hn
    exact h.stepThread hn.2
  | main => exact h.stepMain hn
  | createFails =>
    cases hm : s.main with
    | create idx =>
      simp only [step, hm, Option.ite_none_right_eq_some, Option.some.injEq] at hn
      obtain ⟨-, rfl⟩ := hn
      have hexcl := h.excl
      have hnum := h.numUnjoined
      rw [hm] at hexcl hnum
      exact ⟨hexcl, h.ok, hnum, nofun, nofun, fun i => by simpa [hm] using h.joins i, nofun, nofun,
        nofun, nofun, nofun, nofun, fun _ => h.unjoined (by simp [hm, MPc.started])⟩
    | _ => simp [step, hm] at hn
  | spurious =>
    simp only [step, Option.ite_none_right_eq_some, Option.some.injEq] at hn
    obtain ⟨hm, rfl⟩ := hn
    exact h.wake hm

theorem inv_of_reachable (h : (machine N).Reachable State.init s) : Inv s :=
  h.invariant inv_init fun _ _ _ hi _ => inv_step hi

/-! ## Every thread is joined once -/

structure JoinsOnce (s : State N) : Prop where
  numUnjoined : s.mutex = none → s.numUnjoined = count Thread.terminated s.thread
  numLive : s.mutex = none → s.main.started → s.numLive = count Thread.unjoined s.thread
  /-- A thread is joined at most once, and only after it has marked itself. -/
  joins_le : ∀ i, (s.thread i).joins ≤ 1
  join_terminated : ∀ i, s.main = .join i → (s.thread i).state = .TS_TERMINATED
  /-- The main thread does not wait for a signal that was already sent. -/
  waiting : s.main = .waiting → 0 < s.numUnjoined → ∃ i, (s.thread i).pc.willSignal
  /-- The loop is left exactly when all threads have been joined. -/
  leaves : s.main = .test →
    (stepMain s = some { s with main := .exited } ↔ ∀ i, (s.thread i).joins = 1)
  exited : s.main = .exited → ∀ i, (s.thread i).joins = 1

theorem Inv.joins_eq_one (h : Inv s) (hm : ∀ i, s.main ≠ .joined i) :
    count Thread.unjoined s.thread = 0 ↔ ∀ i, (s.thread i).joins = 1 := by
  rw [count_eq_zero_iff]
  refine forall_congr' fun i => ?_
  have hj := h.joins i
  simp only [hm i, if_false, Nat.add_zero] at hj
  rw [hj]
  simp [Thread.unjoined]

/-- With the mutex free, nobody is between two updates. -/
theorem Inv.lags_of_free (h : Inv s) (hmu : s.mutex = none) :
    s.main.liveLag = 0 ∧ s.main.unjoinedLag = 0 ∧ count Thread.marking s.thread = 0 := by
  have hexcl := h.excl
  rw [hmu] at hexcl
  have hmain := hexcl.main_of_free
  refine ⟨?_, ?_, count_eq_zero_iff.mpr fun i => ?_⟩
  · cases hm : s.main <;> simp_all [MPc.inside, MPc.liveLag]
  · cases hm : s.main <;> simp_all [MPc.inside, MPc.unjoinedLag]
  · have hi := hexcl.worker_of_free i
    refine decide_eq_false fun hpc => ?_
    simp [Thread.inside, hpc, TPc.inside] at hi

theorem joinsOnce_of_reachable (h : (machine N).Reachable State.init s) : JoinsOnce s := by
  have hinv := inv_of_reachable h
  refine ⟨fun hmu => ?_, fun hmu hs => ?_, fun i => ?_, fun i hi => hinv.cursor i (.inl hi),
    fun hm hpos => ?_, fun hm => ?_, fun hm => ?_⟩
  · obtain ⟨-, hlag, hmark⟩ := hinv.lags_of_free hmu
    simpa [hlag, hmark] using hinv.numUnjoined
  · obtain ⟨hlag, -, -⟩ := hinv.lags_of_free hmu
    simpa [hlag] using hinv.numLive hs
  · have hj := hinv.joins i
    by_cases hm : s.main = .joined i
    · simp [hinv.cursor i (.inr hm), hm] at hj
      omega
    · simp only [hm, if_false, Nat.add_zero] at hj
      split at hj <;> omega
  · rcases hinv.waiting hm with h0 | h0
    · omega
    · exact h0
  · rw [← hinv.joins_eq_one (by simp [hm])]
    have hlive := hinv.numLive (by simp [hm, MPc.started])
    have hstep : stepMain s =
        some { s with main := if 0 < s.numLive then .lock else .exited } := by
      simp [stepMain, hm]
    simp only [hm, MPc.liveLag] at hlive
    rcases Nat.eq_zero_or_pos (count Thread.unjoined s.thread) with h0 | h0
    · have hle : ¬0 < s.numLive := by omega
      simp [hstep, hle, h0]
    · have hlt : 0 < s.numLive := by omega
      simp [hstep, hlt, h0.ne']
  · exact (hinv.joins_eq_one (by simp [hm])).mp (hinv.exited hm)

end

/-- One thread sends its signal while the main thread is about to join it, the other wakes it up. -/
theorem joinsOnce_two : ∃ s, (machine 2).Reachable State.init s ∧ s.main = .exited ∧
    JoinsOnce s := by
  have hr : ∃ s, (machine 2).Reachable State.init s ∧ s.main = .exited :=
    Machine.Reachable.exists_of_run
      (List.replicate 6 Label.main ++ [Label.spurious] ++ List.replicate 4 (Label.thread 1) ++
        List.replicate 4 Label.main ++ [Label.thread 1] ++ List.replicate 9 Label.main ++
        List.replicate 5 (Label.thread 0) ++ List.replicate 11 Label.main) .refl ⟨_, rfl, rfl⟩
  obtain ⟨s, hs, hm⟩ := hr
  exact ⟨s, hs, hm, joinsOnce_of_reachable hs⟩

end Tlpi.MultiJoin
