import Tlpi.Lib.CInt
import Tlpi.Lib.Machine
import Tlpi.Lib.Monitor
import Tlpi.Lib.Tally

/-!
# Producers and a consumer with a condition variable (`ch29-threads/prod_condvar.cpp`)

The main thread creates one producer for each argument and consumes units until it has consumed
`totRequired` of them, the sum of the arguments. A producer makes as many units as its argument
says, and none if that is negative. Mutex and condition variable behave as in
`thread_multijoin`: waiting releases the mutex in the same step, a signal that finds nobody waiting
is lost, and the main thread may wake up without one.
-/

namespace Tlpi.ProdCondvar

open Function

variable {N : Nat}

/-- Where a producer is in `threadFunc`. -/
inductive TPc
  | unborn
  /-- `sleep(1)`, then `pthread_mutex_lock(&mtx)`. -/
  | lock
  /-- `avail++` -/
  | incr
  | unlock
  /-- `pthread_cond_signal(&cond)` -/
  | signal
  | returned
  deriving DecidableEq

/-- A producer, with the number of units that it has made. -/
structure Thread where
  pc : TPc
  made : Nat
  deriving DecidableEq

/-- Where the main thread is. -/
inductive MPc
  /-- `totRequired += atoi(argv[j])` and `pthread_create`, or the end of that loop. -/
  | create (j : Nat)
  | lock
  /-- `while (avail == 0)` -/
  | check
  /-- In `pthread_cond_wait`, waiting for a signal. -/
  | waiting
  /-- In `pthread_cond_wait`, woken up and waiting for the mutex. -/
  | relock
  /-- `while (avail > 0)` -/
  | loop
  /-- `numConsumed ++` -/
  | consume
  /-- `avail--` -/
  | decr
  /-- `done = numConsumed >= totRequired` -/
  | setDone
  | unlock
  /-- `if (done)` -/
  | test
  /-- `exit(EXIT_SUCCESS)` -/
  | exited
  /-- Terminated by `errExitEN`. -/
  | failed (msg : String)
  deriving DecidableEq

structure State (N : Nat) where
  thread : Fin N → Thread
  main : MPc
  /-- The owner of `mtx`. -/
  mtx : Option (Agent (Fin N))
  avail : Int
  totRequired : Int
  /-- Indeterminate (`none`) until the loop is entered. -/
  numConsumed : Option Int
  done : Bool

inductive Label (N : Nat)
  /-- A step of producer `i`. -/
  | thread (i : Fin N)
  | main
  /-- `pthread_create` fails. -/
  | createFails
  /-- The main thread wakes up without a signal. -/
  | spurious
  deriving DecidableEq

/-- The arguments, as `atoi` returns them. -/
abbrev Args (N : Nat) := Fin N → Int32

/-- The units that producer `i` makes: the loop `for (j = 0; j < cnt; j++)`. -/
def cnt (args : Args N) (i : Fin N) : Nat := (args i).toInt.toNat

namespace State

def goto (s : State N) (i : Fin N) (pc : TPc) : State N :=
  { s with thread := update s.thread i { s.thread i with pc := pc } }

def init : State N := ⟨fun _ => ⟨.unborn, 0⟩, .create 0, none, 0, 0, none, false⟩

end State

/-- The place of a producer that has made `made` of `cnt` units. -/
def nextUnit (made cnt : Nat) : TPc := if made < cnt then .lock else .returned

/-- One step of producer `i`. -/
def stepThread (args : Args N) (s : State N) (i : Fin N) : Option (State N) :=
  match (s.thread i).pc with
  | .unborn => none
  | .lock => if s.mtx = none then some { s.goto i .incr with mtx := some (.worker i) } else none
  | .incr => some { s with
      thread := update s.thread i ⟨.unlock, (s.thread i).made + 1⟩
      avail := wrap32 (s.avail + 1) }
  | .unlock => some { s.goto i .signal with mtx := none }
  | .signal =>
    some { s.goto i (nextUnit (s.thread i).made (cnt args i)) with
      main := if s.main = .waiting then .relock else s.main }
  | .returned => none

/-- One step of the main thread. A `totRequired` outside `int`, which C leaves undefined, is taken
to wrap around. -/
def stepMain (args : Args N) (s : State N) : Option (State N) :=
  match s.main with
  | .create j =>
    if h : j < N then
      some { s.goto ⟨j, h⟩ (nextUnit (s.thread ⟨j, h⟩).made (cnt args ⟨j, h⟩)) with
        main := .create (j + 1)
        totRequired := wrap32 (s.totRequired + (args ⟨j, h⟩).toInt) }
    else some { s with main := .lock, numConsumed := some 0, done := false }
  | .lock | .relock =>
    if s.mtx = none then some { s with main := .check, mtx := some .main } else none
  | .check =>
    if s.avail = 0 then some { s with main := .waiting, mtx := none }
    else some { s with main := .loop }
  | .waiting => none
  | .loop => some { s with main := if 0 < s.avail then .consume else .unlock }
  | .consume =>
    some { s with main := .decr, numConsumed := s.numConsumed.map fun c => wrap32 (c + 1) }
  | .decr => some { s with main := .setDone, avail := wrap32 (s.avail - 1) }
  | .setDone =>
    some { s with main := .loop, done := s.numConsumed.any fun c => s.totRequired ≤ c }
  | .unlock => some { s with main := .test, mtx := none }
  | .test => some { s with main := if s.done then .exited else .lock }
  | .exited | .failed _ => none

/-- The process has terminated. -/
def MPc.ended : MPc → Bool
  | .exited | .failed _ => true
  | _ => false

def step (args : Args N) (s : State N) : Label N → Option (State N)
  | .thread i => if s.main.ended then none else stepThread args s i
  | .main => stepMain args s
  | .createFails =>
    match s.main with
    | .create j => if j < N then some { s with main := .failed "pthread_create" } else none
    | _ => none
  | .spurious => if s.main = .waiting then some { s with main := .relock } else none

def machine (args : Args N) : Machine (State N) (Label N) := ⟨step args⟩

/-- The units produced so far. -/
def State.produced (s : State N) : Nat := tally (fun _ th => th.made) s.thread

/-- The units that the threads will ever produce. -/
def total (args : Args N) : Nat := ∑ i, cnt args i

/-- What the program is for. -/
structure Consumes (args : Args N) (s : State N) : Prop where
  balance : s.mtx = none → ∀ c ∈ s.numConsumed, c + s.avail = s.produced
  /-- The loop is left only after every unit has been consumed. -/
  exited : s.main = .exited → s.numConsumed = some (total args : Int)
  /-- The main thread does not wait for producers that have all returned. -/
  awake : ¬(s.main = .waiting ∧ ∀ i, (s.thread i).pc = .returned)

/-! ## The invariant -/

/-- The producer holds `mtx`. -/
def TPc.inside : TPc → Bool
  | .incr | .unlock => true
  | _ => false

/-- The producer has made a unit and has still to send the signal for it. -/
def TPc.willSignal : TPc → Bool
  | .unlock | .signal => true
  | _ => false

def Thread.inside (th : Thread) : Bool := th.pc.inside

/-- A producer that makes `n` units has made as many as its place says. -/
structure Thread.Ok (n : Nat) (th : Thread) : Prop where
  made_le : th.made ≤ n
  unborn : th.pc = .unborn → th.made = 0
  making : th.pc = .lock ∨ th.pc = .incr → th.made < n
  returned : th.pc = .returned → th.made = n

namespace MPc

/-- The main thread holds `mtx`. -/
def inside : MPc → Bool
  | .check | .loop | .consume | .decr | .setDone | .unlock => true
  | _ => false

/-- All producers have been created. -/
def started : MPc → Bool
  | .create _ | .failed _ => false
  | _ => true

/-- Between `numConsumed ++` and `avail--`. -/
def lag : MPc → Nat
  | .decr => 1
  | _ => 0

/-- `done` has been computed for the present `numConsumed`. -/
def settled : MPc → Bool
  | .decr | .setDone => false
  | _ => true

/-- On the way to the next unit. -/
def seeking : MPc → Bool
  | .lock | .check | .waiting | .relock => true
  | _ => false

end MPc

/-- `numConsumed`, and 0 before it is set. -/
def State.consumed (s : State N) : Int := s.numConsumed.getD 0

/-- What an argument adds to `totRequired` once its producer exists. -/
def share (args : Args N) (i : Fin N) (th : Thread) : Int :=
  if th.pc = .unborn then 0 else (args i).toInt

structure Inv (args : Args N) (s : State N) : Prop where
  excl : Excl s.mtx s.main.inside fun i => (s.thread i).inside
  ok : ∀ i, (s.thread i).Ok (cnt args i)
  totRequired : s.totRequired = wrap32 (tally (share args) s.thread)
  unborn : ∀ j i, s.main = .create j → ((s.thread i).pc = .unborn ↔ j ≤ i)
  born : s.main.started → ∀ i, (s.thread i).pc ≠ .unborn
  defined : s.numConsumed = if s.main.started then some s.consumed else none
  balance : s.consumed + s.avail = s.produced + s.main.lag
  avail_nonneg : 0 ≤ s.avail
  consumed_nonneg : 0 ≤ s.consumed
  avail_pos : s.main = .consume ∨ s.main = .decr → 0 < s.avail
  consumed_pos : s.main = .decr ∨ s.main = .setDone → 0 < s.consumed
  done : s.main.settled → (s.done ↔ 0 < s.consumed ∧ s.totRequired ≤ s.consumed)
  seeking : s.main.seeking → s.done = false
  exited : s.main = .exited → s.done
  /-- No wake-up is lost. -/
  waiting : s.main = .waiting → s.avail = 0 ∨ ∃ i, (s.thread i).pc.willSignal

section

variable {args : Args N} {s t : State N} {i : Fin N} {th : Thread}

theorem inv_init (args : Args N) : Inv args State.init := by
  have hmade : (State.init (N := N)).produced = 0 := tally_eq_zero fun _ => rfl
  have hshare : tally (share args) (State.init (N := N)).thread = 0 := tally_eq_zero fun _ => rfl
  refine ⟨⟨?_, fun i => ?_⟩, fun i => ⟨Nat.zero_le _, fun _ => rfl, nofun, nofun⟩, ?_,
    fun j i h => ?_, nofun, rfl, ?_, le_rfl, le_rfl, nofun, nofun, fun _ => ?_, nofun, nofun, nofun⟩
  · simp [State.init, MPc.inside]
  · simp [State.init, Thread.inside, TPc.inside]
  · rw [hshare]
    rfl
  · cases h
    simp [State.init]
  · rw [hmade]
    rfl
  · simp [State.init, State.consumed]

theorem Inv.produced_le (h : Inv args s) : s.produced ≤ total args := by
  unfold State.produced tally total
  exact Finset.sum_le_sum fun i _ => (h.ok i).made_le

theorem wrap32_of_lt {x : Int} (h0 : 0 ≤ x) (h : x < 2 ^ 31) : wrap32 x = x :=
  wrap_eq_self (by omega) h

/-- The step rule for a producer. -/
theorem Inv.setThread (h : Inv args s) {mtx : Option (Agent (Fin N))} {avail : Int}
    (hexcl : Excl mtx s.main.inside fun j => (update s.thread i th j).inside)
    (hok : th.Ok (cnt args i)) (hpc : (s.thread i).pc ≠ .unborn) (hpc' : th.pc ≠ .unborn)
    (havail : avail + (s.thread i).made = s.avail + th.made) (hle : (s.thread i).made ≤ th.made)
    (hwait : s.main = .waiting → (avail = s.avail ∨ th.pc.willSignal) ∧
      ((s.thread i).pc.willSignal → th.pc.willSignal)) :
    Inv args { s with thread := update s.thread i th, mtx := mtx, avail := avail } := by
  have hmade : tally (fun _ th => th.made) (update s.thread i th) + (s.thread i).made =
      tally (fun _ th => th.made) s.thread + th.made := tally_update _ s.thread i th
  refine ⟨hexcl, fun j => ?_, ?_, fun k j hk => ?_, fun hm j => ?_, h.defined, ?_, ?_,
    h.consumed_nonneg, fun hm => ?_, h.consumed_pos, h.done, h.seeking, h.exited, fun hm => ?_⟩
  · exact forall_update (p := fun j (th : Thread) => th.Ok (cnt args j)) hok h.ok j
  · rw [tally_update_of_eq (by simp [share, hpc, hpc'])]
    exact h.totRequired
  · rcases eq_or_ne j i with rfl | hji
    · simpa [hpc, hpc'] using h.unborn k j hk
    · simpa [hji] using h.unborn k j hk
  · exact forall_update (p := fun _ (th : Thread) => th.pc ≠ .unborn) hpc' (h.born hm) j
  · have hb := h.balance
    simp only [State.produced, State.consumed] at hb ⊢
    omega
  · have ha := h.avail_nonneg
    simp only
    omega
  · have ha := h.avail_pos hm
    simp only
    omega
  · obtain ⟨hn, hw⟩ := hwait hm
    exact signalled_update (p := fun th : Thread => th.pc.willSignal) (h.waiting hm) hn hw

/-- The step rule for the main thread, which leaves the producers alone. -/
theorem Inv.goMain (h : Inv args s) {m : MPc} {mtx : Option (Agent (Fin N))} {avail c : Int}
    {done : Bool} (hs : s.main.started) (hm : m.started)
    (hexcl : Excl mtx m.inside fun i => (s.thread i).inside)
    (hbalance : c + avail + s.main.lag = s.consumed + s.avail + m.lag) (ha : 0 ≤ avail)
    (hc : 0 ≤ c) (hapos : m = .consume ∨ m = .decr → 0 < avail)
    (hcpos : m = .decr ∨ m = .setDone → 0 < c)
    (hdone : m.settled → (done ↔ 0 < c ∧ s.totRequired ≤ c)) (hseek : m.seeking → done = false)
    (hexit : m = .exited → done) (hwait : m = .waiting → avail = 0) :
    Inv args { s with
      main := m
      mtx := mtx
      avail := avail
      numConsumed := some c
      done := done } := by
  refine ⟨hexcl, h.ok, h.totRequired, ?_, fun _ => h.born hs, ?_, ?_, ha, hc, hapos, hcpos, hdone,
    hseek, hexit, fun hm => .inl (hwait hm)⟩
  · rintro j i rfl
    cases hm
  · simp [hm, State.consumed]
  · have hb := h.balance
    simp only [State.consumed, Option.getD_some, State.produced] at hb hbalance ⊢
    omega

/-- A move of the main thread from `m₀` to `m` that changes only who owns the mutex. -/
theorem Inv.moveMain (h : Inv args s) {m₀ m : MPc} {mtx : Option (Agent (Fin N))}
    (hm₀ : s.main = m₀) (hs : m₀.started) (hm : m.started) (hl : m₀.lag = 0) (hl' : m.lag = 0)
    (hset : m₀.settled) (hexcl : Excl mtx m.inside fun i => (s.thread i).inside)
    (hapos : m = .consume → 0 < s.avail) (hne : m ≠ .setDone)
    (hseek : m.seeking → s.done = false) (hexit : m = .exited → s.done)
    (hwait : m = .waiting → s.avail = 0) : Inv args { s with main := m, mtx := mtx } := by
  subst hm₀
  have hdef := h.defined
  rw [if_pos hs] at hdef
  have hgo := h.goMain (c := s.consumed) hs hm hexcl (by omega) h.avail_nonneg h.consumed_nonneg
    (fun hm => ?_) (fun hm => ?_) (fun _ => h.done hset) hseek hexit hwait
  · rwa [← hdef] at hgo
  · rcases hm with hm | hm
    · exact hapos hm
    · simp [hm, MPc.lag] at hl'
  · rcases hm with hm | hm
    · simp [hm, MPc.lag] at hl'
    · exact absurd hm hne

theorem Inv.wake (h : Inv args s) (hm : s.main = .waiting) :
    Inv args { s with main := .relock } := by
  have hexcl := h.excl
  rw [hm] at hexcl
  exact h.moveMain hm rfl rfl rfl rfl rfl hexcl nofun nofun
    (fun _ => h.seeking (by simp [hm, MPc.seeking])) nofun nofun

theorem ok_nextUnit {made n : Nat} (h : made ≤ n) : Thread.Ok n ⟨nextUnit made n, made⟩ := by
  unfold nextUnit
  split
  · exact ⟨h, nofun, fun _ => ‹_›, nofun⟩
  · exact ⟨h, nofun, nofun, fun _ => Nat.le_antisymm h (Nat.le_of_not_lt ‹_›)⟩

theorem nextUnit_ne_unborn (made n : Nat) : nextUnit made n ≠ .unborn := by
  unfold nextUnit
  split <;> nofun

theorem nextUnit_outside (made n : Nat) : (nextUnit made n).inside = false := by
  unfold nextUnit
  split <;> rfl

/-- A producer that is about to make a unit has room for it in `avail`. -/
theorem Inv.avail_lt (h : Inv args s) (hpc : (s.thread i).pc = .incr) :
    s.avail + 1 ≤ total args := by
  have hmain : s.main.inside = false :=
    h.excl.main_of_worker (i := i) (by simp [Thread.inside, hpc, TPc.inside])
  have hlag : s.main.lag = 0 := by
    cases hm : s.main <;> simp_all [MPc.inside, MPc.lag]
  have hlt : s.produced < total args := by
    unfold State.produced tally total
    exact Finset.sum_lt_sum (fun j _ => (h.ok j).made_le)
      ⟨i, Finset.mem_univ i, (h.ok i).making (.inr hpc)⟩
  have hb := h.balance
  have hc := h.consumed_nonneg
  omega

theorem Inv.stepThread (hP : total args < 2 ^ 31) (h : Inv args s)
    (hn : stepThread args s i = some t) : Inv args t := by
  have hok := h.ok i
  cases hpc : (s.thread i).pc with
  | unborn | returned => simp [ProdCondvar.stepThread, hpc] at hn
  | lock =>
    simp only [ProdCondvar.stepThread, hpc, Option.ite_none_right_eq_some, Option.some.injEq] at hn
    obtain ⟨hmu, rfl⟩ := hn
    have hexcl := h.excl
    rw [hmu] at hexcl
    exact h.setThread (hexcl.lockWorker_of rfl i)
      ⟨hok.made_le, nofun, fun _ => hok.making (.inl hpc), nofun⟩ (by simp [hpc]) nofun rfl le_rfl
      fun _ => ⟨.inl rfl, by simp [hpc, TPc.willSignal]⟩
  | incr =>
    simp only [ProdCondvar.stepThread, hpc, Option.some.injEq] at hn
    subst hn
    have hlt := h.avail_lt hpc
    have ha := h.avail_nonneg
    rw [wrap32_of_lt (by omega) (by omega)]
    refine h.setThread (h.excl.stepWorker (by simp [Thread.inside, hpc, TPc.inside]))
      ⟨hok.making (.inr hpc), nofun, nofun, nofun⟩ (by simp [hpc]) nofun ?_ (Nat.le_succ _)
      fun _ => ⟨.inr rfl, fun _ => rfl⟩
    push_cast
    omega
  | unlock =>
    simp only [ProdCondvar.stepThread, hpc, Option.some.injEq] at hn
    subst hn
    exact h.setThread (h.excl.unlockWorker_of (by simp [Thread.inside, hpc, TPc.inside]) rfl)
      ⟨hok.made_le, nofun, nofun, nofun⟩ (by simp [hpc]) nofun rfl le_rfl
      fun _ => ⟨.inl rfl, fun _ => rfl⟩
  | signal =>
    simp only [ProdCondvar.stepThread, hpc, Option.some.injEq] at hn
    subst hn
    have hwoken : Inv args { s with main := if s.main = .waiting then .relock else s.main } := by
      split
      · exact h.wake ‹_›
      · exact h
    refine hwoken.setThread
      (hwoken.excl.stepWorker (by
        rw [Thread.inside, Thread.inside, nextUnit_outside, hpc]
        rfl))
      (ok_nextUnit hok.made_le) (by simp [hpc]) (nextUnit_ne_unborn _ _) rfl le_rfl fun hm => ?_
    split at hm <;> simp_all

theorem Inv.create {j : Nat} (h : Inv args s) (hm : s.main = .create j) (hj : j < N)
    (hok : th.Ok (cnt args ⟨j, hj⟩)) (hborn : th.pc ≠ .unborn) (hout : th.inside = false)
    (hmade : th.made = (s.thread ⟨j, hj⟩).made) :
    Inv args { s with
      thread := update s.thread ⟨j, hj⟩ th
      main := .create (j + 1)
      totRequired := wrap32 (s.totRequired + (args ⟨j, hj⟩).toInt) } := by
  have hpc : (s.thread ⟨j, hj⟩).pc = .unborn := (h.unborn j _ hm).mpr le_rfl
  have hexcl := h.excl
  have hdef := h.defined
  have hb := h.balance
  have hdone := h.done
  rw [hm] at hexcl hdef hb hdone
  refine ⟨hexcl.stepWorker ?_, fun k => ?_, ?_, fun l k hl => ?_, nofun, hdef, ?_, h.avail_nonneg,
    h.consumed_nonneg, nofun, nofun, fun _ => ?_, nofun, nofun, nofun⟩
  · rw [hout, Thread.inside, hpc]
    rfl
  · rcases eq_or_ne k ⟨j, hj⟩ with rfl | hk
    · simpa using hok
    · simpa [hk] using h.ok k
  · have htot := tally_update (share args) s.thread ⟨j, hj⟩ th
    simp only [share, hpc, hborn, if_true, if_false, add_zero] at htot
    simp only [htot, h.totRequired, wrap_add_wrap]
  · cases hl
    rcases eq_or_ne k ⟨j, hj⟩ with rfl | hk
    · simp [hborn]
    · have hne : (k : Nat) ≠ j := fun h => hk (Fin.ext h)
      simp only [update_of_ne hk, h.unborn j k hm]
      omega
  · have hp : tally (fun _ th => th.made) (update s.thread ⟨j, hj⟩ th) =
        tally (fun _ th => th.made) s.thread := tally_update_of_eq hmade
    simp only [State.produced, hp] at hb ⊢
    exact hb
  · have hc : s.consumed = 0 := by simp [State.consumed, hdef, MPc.started]
    simp only [hc, lt_irrefl, false_and, iff_false] at hdone
    simp only [State.consumed] at hc ⊢
    simpa [hc] using hdone rfl

/-- The loop is entered with `numConsumed = 0` and `done = FALSE`. -/
theorem Inv.endCreate {j : Nat} (h : Inv args s) (hm : s.main = .create j) (hj : N ≤ j) :
    Inv args { s with main := .lock, numConsumed := some 0, done := false } := by
  have hexcl := h.excl
  have hdef := h.defined
  have hb := h.balance
  rw [hm] at hexcl hdef hb
  have hc : s.consumed = 0 := by simp [State.consumed, hdef, MPc.started]
  refine ⟨hexcl, h.ok, h.totRequired, nofun, fun _ i hi => ?_, rfl, ?_, h.avail_nonneg, le_rfl,
    nofun, nofun, fun _ => ?_, fun _ => rfl, nofun, nofun⟩
  · have hle := (h.unborn j i hm).mp hi
    omega
  · rw [hc] at hb
    exact hb
  · simp [State.consumed]

theorem Inv.step_consume (hP : total args < 2 ^ 31) (h : Inv args s) (hm : s.main = .consume)
    (hn : ProdCondvar.stepMain args s = some t) : Inv args t := by
  simp only [ProdCondvar.stepMain, hm, Option.some.injEq] at hn
  subst hn
  have hexcl := h.excl
  have hpos := h.avail_pos (.inl hm)
  have hb := h.balance
  have hle := h.produced_le
  have hc := h.consumed_nonneg
  have hdef := h.defined
  rw [hm] at hexcl hb hdef
  simp only [MPc.lag] at hb
  rw [hdef]
  simp only [MPc.started, if_true, Option.map_some]
  rw [wrap32_of_lt (by omega) (by omega)]
  exact h.goMain (by simp [hm, MPc.started]) rfl hexcl (by simp [hm, MPc.lag]; omega)
    h.avail_nonneg (by omega) (fun _ => hpos) (fun _ => by omega) nofun nofun nofun nofun

theorem Inv.step_decr (hP : total args < 2 ^ 31) (h : Inv args s) (hm : s.main = .decr)
    (hn : ProdCondvar.stepMain args s = some t) : Inv args t := by
  simp only [ProdCondvar.stepMain, hm, Option.some.injEq] at hn
  subst hn
  have hexcl := h.excl
  have hpos := h.avail_pos (.inr hm)
  have hb := h.balance
  have hle := h.produced_le
  have hc := h.consumed_nonneg
  have hdef := h.defined
  rw [hm] at hexcl hb hdef
  simp only [MPc.lag] at hb
  rw [hdef]
  simp only [MPc.started, if_true]
  rw [wrap32_of_lt (by omega) (by omega)]
  exact h.goMain (by simp [hm, MPc.started]) rfl hexcl (by simp [hm, MPc.lag]; omega)
    (by omega) hc nofun (fun _ => h.consumed_pos (.inl hm)) nofun nofun nofun nofun

theorem Inv.step_setDone (h : Inv args s) (hm : s.main = .setDone)
    (hn : ProdCondvar.stepMain args s = some t) : Inv args t := by
  simp only [ProdCondvar.stepMain, hm, Option.some.injEq] at hn
  subst hn
  have hexcl := h.excl
  have hpos := h.consumed_pos (.inr hm)
  have hdef := h.defined
  rw [hm] at hexcl hdef
  rw [hdef]
  simp only [MPc.started, if_true, Option.any_some]
  exact h.goMain (by simp [hm, MPc.started]) rfl hexcl (by simp [hm, MPc.lag]) h.avail_nonneg
    hpos.le nofun nofun (fun _ => by simp [hpos]) nofun nofun nofun

theorem Inv.stepMain (hP : total args < 2 ^ 31) (h : Inv args s)
    (hn : stepMain args s = some t) : Inv args t := by
  have hexcl := h.excl
  cases hm : s.main with
  | create j =>
    simp only [ProdCondvar.stepMain, hm] at hn
    split at hn <;> cases hn
    · exact h.create hm _ (ok_nextUnit (h.ok _).made_le) (nextUnit_ne_unborn _ _)
        (nextUnit_outside _ _) rfl
    · exact h.endCreate hm (Nat.le_of_not_lt ‹_›)
  | lock | relock =>
    simp only [ProdCondvar.stepMain, hm, Option.ite_none_right_eq_some, Option.some.injEq] at hn
    obtain ⟨hmu, rfl⟩ := hn
    rw [hmu] at hexcl
    exact h.moveMain hm rfl rfl rfl rfl rfl hexcl.lockMain nofun nofun
      (fun _ => h.seeking (by simp [hm, MPc.seeking])) nofun nofun
  | check =>
    simp only [ProdCondvar.stepMain, hm] at hn
    rw [hm] at hexcl
    split at hn <;> cases hn
    · exact h.moveMain hm rfl rfl rfl rfl rfl (Excl.unlockMain hexcl) nofun nofun
        (fun _ => h.seeking (by simp [hm, MPc.seeking])) nofun (fun _ => ‹_›)
    · exact h.moveMain hm rfl rfl rfl rfl rfl hexcl nofun nofun nofun nofun nofun
  | waiting => simp [ProdCondvar.stepMain, hm] at hn
  | loop =>
    simp only [ProdCondvar.stepMain, hm, Option.some.injEq] at hn
    subst hn
    rw [hm] at hexcl
    split
    · exact h.moveMain hm rfl rfl rfl rfl rfl hexcl (fun _ => ‹_›) nofun nofun nofun nofun
    · exact h.moveMain hm rfl rfl rfl rfl rfl hexcl nofun nofun nofun nofun nofun
  | consume => exact h.step_consume hP hm hn
  | decr => exact h.step_decr hP hm hn
  | setDone => exact h.step_setDone hm hn
  | unlock =>
    simp only [ProdCondvar.stepMain, hm, Option.some.injEq] at hn
    subst hn
    rw [hm] at hexcl
    exact h.moveMain hm rfl rfl rfl rfl rfl (Excl.unlockMain hexcl) nofun nofun nofun nofun nofun
  | test =>
    simp only [ProdCondvar.stepMain, hm, Option.some.injEq] at hn
    subst hn
    rw [hm] at hexcl
    split
    · exact h.moveMain hm rfl rfl rfl rfl rfl hexcl nofun nofun nofun (fun _ => ‹_›) nofun
    · exact h.moveMain hm rfl rfl rfl rfl rfl hexcl nofun nofun
        (fun _ => Bool.eq_false_iff.mpr ‹_›) nofun nofun
  | exited | failed msg => simp [ProdCondvar.stepMain, hm] at hn

theorem inv_step (hP : total args < 2 ^ 31) {a : Label N} (h : Inv args s)
    (hn : step args s a = some t) : Inv args t := by
  cases a with
  | thread i =>
    simp only [step, Option.ite_none_left_eq_some] at hn
    exact h.stepThread hP hn.2
  | main => exact h.stepMain hP hn
  | createFails =>
    cases hm : s.main with
    | create j =>
      simp only [step, hm, Option.ite_none_right_eq_some, Option.some.injEq] at hn
      obtain ⟨-, rfl⟩ := hn
      have hexcl := h.excl
      have hdef := h.defined
      have hb := h.balance
      have hdone := h.done
      rw [hm] at hexcl hdef hb hdone
      exact ⟨hexcl, h.ok, h.totRequired, nofun, nofun, hdef, hb, h.avail_nonneg, h.consumed_nonneg,
        nofun, nofun, fun _ => hdone rfl, nofun, nofun, nofun⟩
    | _ => simp [step, hm] at hn
  | spurious =>
    simp only [step, Option.ite_none_right_eq_some, Option.some.injEq] at hn
    obtain ⟨hm, rfl⟩ := hn
    exact h.wake hm

theorem inv_of_reachable (hP : total args < 2 ^ 31)
    (h : (machine args).Reachable State.init s) : Inv args s :=
  h.invariant (inv_init args) fun _ _ _ hi _ => inv_step hP hi

/-- The sum of the arguments, as the `int` that `totRequired` holds in the end. -/
def required (args : Args N) : Int := wrap32 (∑ i, (args i).toInt)

theorem Inv.totRequired_eq (h : Inv args s) (hs : s.main.started) :
    s.totRequired = required args := by
  rw [h.totRequired, required, tally]
  congr 1
  exact Finset.sum_congr rfl fun i _ => if_neg (h.born hs i)

theorem Inv.consumes (h : Inv args s) (hreq : max (required args) 1 = total args) :
    Consumes args s := by
  refine ⟨fun hmu c hc => ?_, fun hm => ?_, fun ⟨hm, hret⟩ => ?_⟩
  · have hmain : s.main.inside = false := by
      have hexcl := h.excl
      rw [hmu] at hexcl
      exact hexcl.main_of_free
    have hlag : s.main.lag = 0 := by
      cases hm : s.main <;> simp_all [MPc.inside, MPc.lag]
    have hb := h.balance
    rw [hlag, State.consumed, Option.mem_def.mp hc] at hb
    simpa using hb
  · have hs : s.main.started := by simp [hm, MPc.started]
    have hdef := h.defined
    obtain ⟨hpos, hle⟩ := (h.done (by simp [hm, MPc.settled])).mp (h.exited hm)
    have hb := h.balance
    have ha := h.avail_nonneg
    have hp := h.produced_le
    rw [h.totRequired_eq hs] at hle
    rw [if_pos hs] at hdef
    simp only [hm, MPc.lag] at hb
    rw [hdef]
    congr 1
    omega
  · have hs : s.main.started := by simp [hm, MPc.started]
    have hprod : s.produced = total args := by
      unfold State.produced tally total
      exact Finset.sum_congr rfl fun i _ => (h.ok i).returned (hret i)
    have ha : s.avail = 0 := by
      rcases h.waiting hm with ha | ⟨i, hi⟩
      · exact ha
      · simp [hret i, TPc.willSignal] at hi
    have hb := h.balance
    have hseek := h.seeking (by simp [hm, MPc.seeking])
    have hdone := h.done (by simp [hm, MPc.settled])
    rw [h.totRequired_eq hs, hseek] at hdone
    simp only [hm, MPc.lag] at hb
    simp only [Bool.false_eq_true, false_iff, not_and, not_le] at hdone
    have := hdone (by omega)
    omega

end

end Tlpi.ProdCondvar
