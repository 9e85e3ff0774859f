import Mathlib.Logic.Function.Basic
import Tlpi.Lib.Machine

/-!
# Single-instance daemons (`filelock/create_pid_file.c`)

Any number of processes call `createPidFile` on one path and delete the file just before they
terminate. A name refers to an inode; `open` with `O_CREAT` makes a new inode when there is no such
name, `unlink` removes the name but not the inode that others have open, and a record lock is on
the inode. Each step is one system call of one process, which may fail.
-/

namespace Tlpi.CreatePidFile

open Function

variable {N : Nat}

/-- The number of an inode. -/
abbrev Ino := Nat

/-- The next system call of a process, with the inode that its descriptor `fd` refers to. -/
inductive Pc
  /-- `open(pidFile, O_RDWR | O_CREAT, S_IRUSR | S_IWUSR)` -/
  | opens
  /-- `fcntl(fd, F_GETFD)`, only with `CPF_CLOEXEC`. -/
  | getfd (i : Ino)
  /-- `fcntl(fd, F_SETFD, flags)` -/
  | setfd (i : Ino)
  /-- `lockRegion(fd, F_WRLCK, SEEK_SET, 0, 0)` -/
  | locks (i : Ino)
  /-- `ftruncate(fd, 0)` -/
  | truncates (i : Ino)
  /-- `write(fd, buf, strlen(buf))` -/
  | writes (i : Ino)
  /-- `createPidFile` has returned; the caller runs until it deletes the file. -/
  | runs (i : Ino)
  /-- The caller has deleted the file and is about to terminate. -/
  | deleted (i : Ino)
  | exited
  /-- Terminated by `errExit` or `fatal`. -/
  | failed (msg : String)
  deriving DecidableEq

/-- Returned from `createPidFile` and not yet terminated. -/
def Pc.returned : Pc → Bool
  | .runs _ | .deleted _ => true
  | _ => false

/-- Between the deletion of the file and the termination. -/
def Pc.leaving : Pc → Bool
  | .deleted _ => true
  | _ => false

/-- The inode that the process is about to write to. -/
def Pc.target : Pc → Option Ino
  | .writes i => some i
  | _ => none

/-- The process holds the lock on inode `i`. -/
def Pc.holds (i : Ino) : Pc → Bool
  | .truncates j | .writes j | .runs j | .deleted j => i == j
  | _ => false

/-- The arguments of the calls, and the PIDs of the callers. -/
structure Config (N : Nat) where
  pidFile : String
  progName : Fin N → String
  cloexec : Fin N → Bool
  pid : Fin N → Nat

/-- `snprintf(buf, BUF_SIZE, "%ld\n", (long) getpid())` -/
def pidText (pid : Nat) : List Char := Nat.toDigits 10 pid ++ ['\n']

structure State (N : Nat) where
  /-- The inode that `pidFile` names. -/
  name : Option Ino
  /-- The inode that a newly created file gets. -/
  fresh : Ino
  data : Ino → List Char
  lock : Ino → Option (Fin N)
  pc : Fin N → Pc

/-- A step of `proc`: its system call fails if `err` is set, a `write` takes `len` characters. -/
structure Label (N : Nat) where
  proc : Fin N
  err : Bool
  len : Nat

namespace State

def goto (s : State N) (p : Fin N) (pc : Pc) : State N := { s with pc := update s.pc p pc }

/-- Process `p` terminates, which drops its locks. -/
def exit (s : State N) (p : Fin N) (pc : Pc) : State N :=
  { s with
    lock := fun i => if s.lock i = some p then none else s.lock i
    pc := update s.pc p pc }

/-- Before any of the processes has started; a stale file may be there. -/
def init (stale : Option (List Char)) : State N where
  name := stale.map fun _ => 0
  fresh := 1
  data := fun _ => stale.getD []
  lock := fun _ => none
  pc := fun _ => .opens

end State

/-- One system call of one process. -/
def step (cfg : Config N) (s : State N) (a : Label N) : Option (State N) :=
  let p := a.proc
  let pidFile := cfg.pidFile
  let progName := cfg.progName p
  match s.pc p with
  | .opens =>
    if a.err then some (s.exit p (.failed s!"Could not open PID file {pidFile}"))
    else
      let pc i := if cfg.cloexec p then Pc.getfd i else Pc.locks i
      match s.name with
      | some i => some (s.goto p (pc i))
      | none => some { s with
          name := some s.fresh
          fresh := s.fresh + 1
          data := update s.data s.fresh []
          pc := update s.pc p (pc s.fresh) }
  | .getfd i =>
    if a.err then some (s.exit p (.failed s!"Could not get flags for PID file {pidFile}"))
    else some (s.goto p (.setfd i))
  | .setfd i =>
    if a.err then some (s.exit p (.failed s!"Could not set flags for PID file {pidFile}"))
    else some (s.goto p (.locks i))
  | .locks i =>
    if a.err then some (s.exit p (.failed s!"Unable to lock PID file '{pidFile}'"))
    else match s.lock i with
      | some _ => some (s.exit p (.failed
          s!"PID file '{pidFile}' is locked; probably '{progName}' is already running"))
      | none => some { s with
          lock := update s.lock i (some p)
          pc := update s.pc p (.truncates i) }
  | .truncates i =>
    if a.err then some (s.exit p (.failed s!"Could not truncate PID file '{pidFile}'"))
    else some { s with data := update s.data i [], pc := update s.pc p (.writes i) }
  | .writes i =>
    let buf := pidText (cfg.pid p)
    if a.err then some (s.exit p (.failed s!"Writing to PID file '{pidFile}'"))
    else
      let k := min a.len buf.length
      let t := { s with data := update s.data i (buf.take k ++ (s.data i).drop k) }
      if k ≠ buf.length then some (t.exit p (.failed s!"Writing to PID file '{pidFile}'"))
      else some (t.goto p (.runs i))
  | .runs i => some { s with name := none, pc := update s.pc p (.deleted i) }
  | .deleted _ => some (s.exit p .exited)
  | .exited | .failed _ => none

def machine (cfg : Config N) : Machine (State N) (Label N) := ⟨step cfg⟩

/-! ## What a step can do -/

/-- Neither holding a lock nor returned from `createPidFile`. -/
def Pc.outside : Pc → Bool
  | .truncates _ | .writes _ | .runs _ | .deleted _ => false
  | _ => true

theorem Pc.free_of_outside {pc : Pc} (h : pc.outside) :
    (∀ i, pc.holds i = false) ∧ (∀ i, pc ≠ .writes i) ∧ (∀ i, pc ≠ .runs i) ∧
      pc.returned = false := by
  cases pc with
  | truncates _ | writes _ | runs _ | deleted _ => cases h
  | _ => exact ⟨fun _ => rfl, nofun, nofun, rfl⟩

/-- `createPidFile` returns in the step `a`, with inode `i` locked: all of the PID is written. -/
def Returns (cfg : Config N) (s : State N) (a : Label N) (i : Ino) : Prop :=
  s.pc a.proc = .writes i ∧ a.err = false ∧ (pidText (cfg.pid a.proc)).length ≤ a.len

instance (cfg : Config N) (s : State N) (a : Label N) (i : Ino) : Decidable (Returns cfg s a i) :=
  inferInstanceAs (Decidable (_ ∧ _ ∧ _))

/-- The effects of the step `a`. -/
inductive Moves (cfg : Config N) (s : State N) (a : Label N) : State N → Prop
  | exit {pc} : pc.outside → Moves cfg s a (s.exit a.proc pc)
  | goto {pc} : pc.outside → Moves cfg s a (s.goto a.proc pc)
  | create {pc} : s.name = none → pc.outside →
      Moves cfg s a { s with
        name := some s.fresh
        fresh := s.fresh + 1
        data := update s.data s.fresh []
        pc := update s.pc a.proc pc }
  | lock {i} : s.lock i = none →
      Moves cfg s a { s with
        lock := update s.lock i (some a.proc)
        pc := update s.pc a.proc (.truncates i) }
  | truncate {i} : s.pc a.proc = .truncates i →
      Moves cfg s a { s with data := update s.data i [], pc := update s.pc a.proc (.writes i) }
  | short {i d pc} : s.pc a.proc = .writes i → pc.outside →
      Moves cfg s a ({ s with data := update s.data i d }.exit a.proc pc)
  | returns {i} : Returns cfg s a i →
      Moves cfg s a ({ s with data := update s.data i (pidText (cfg.pid a.proc) ++
        (s.data i).drop (pidText (cfg.pid a.proc)).length) }.goto a.proc (.runs i))
  | unlink {i} : s.pc a.proc = .runs i →
      Moves cfg s a { s with name := none, pc := update s.pc a.proc (.deleted i) }

theorem step_moves {cfg : Config N} {s t : State N} {a : Label N} (h : step cfg s a = some t) :
    Moves cfg s a t := by
  unfold step at h
  cases hpc : s.pc a.proc with
  | opens =>
    have hpc' {i} : (if cfg.cloexec a.proc then Pc.getfd i else Pc.locks i).outside := by
      split <;> rfl
    simp only [hpc] at h
    split at h
    · cases h
      exact .exit rfl
    · cases hn : s.name with
      | none =>
        simp only [hn, Option.some.injEq] at h
        exact h ▸ .create hn hpc'
      | some i =>
        simp only [hn, Option.some.injEq] at h
        exact h ▸ .goto hpc'
  | getfd i | setfd i =>
    simp only [hpc] at h
    split at h <;> cases h
    · exact .exit rfl
    · exact .goto rfl
  | locks i =>
    simp only [hpc] at h
    split at h
    · cases h
      exact .exit rfl
    · cases hl : s.lock i with
      | none =>
        simp only [hl, Option.some.injEq] at h
        exact h ▸ .lock hl
      | some q =>
        simp only [hl, Option.some.injEq] at h
        exact h ▸ .exit rfl
  | truncates i =>
    simp only [hpc] at h
    split at h <;> cases h
    · exact .exit rfl
    · exact .truncate hpc
  | writes i =>
    simp only [hpc] at h
    split at h
    · cases h
      exact .exit rfl
    · rename_i herr
      split at h
      · cases h
        exact .short hpc rfl
      · rename_i hk
        rw [not_not] at hk
        cases h
        rw [hk, List.take_length]
        exact .returns ⟨hpc, Bool.eq_false_iff.mpr herr, by omega⟩
  | runs i =>
    simp only [hpc, Option.some.injEq] at h
    exact h ▸ .unlink hpc
  | deleted i =>
    simp only [hpc, Option.some.injEq] at h
    exact h ▸ .exit rfl
  | exited | failed msg => simp [hpc] at h

/-! ## Mutual exclusion

The lock is on the inode that a process opened, so it excludes another instance only while
`pidFile` still names that inode, and an instance that has deleted the file but not yet
terminated excludes nobody. -/

/-- When `createPidFile` returns, `pidFile` still names the inode that it opened and locked, and no
other instance is between the deletion of the file and its termination. -/
def Sound (cfg : Config N) (s : State N) (a : Label N) : Prop :=
  ∀ i, Returns cfg s a i → s.name = some i ∧ ∀ q, (s.pc q).leaving = false

instance (cfg : Config N) (s : State N) (a : Label N) : Decidable (Sound cfg s a) :=
  decidable_of_iff
    (∀ i ∈ (s.pc a.proc).target, Returns cfg s a i → s.name = some i ∧ ∀ q, (s.pc q).leaving = false)
    ⟨fun h i hr => h i (by simp [hr.1, Pc.target]) hr, fun h i _ => h i⟩

/-- One instance runs, and the file holds its PID until it begins to delete the file. -/
structure OneInstance (cfg : Config N) (s : State N) : Prop where
  one : ∀ p q, (s.pc p).returned → (s.pc q).returned → p = q
  pid : ∀ p i, s.pc p = .runs i → ∃ j, s.name = some j ∧ s.data j = pidText (cfg.pid p)

structure Inv (cfg : Config N) (s : State N) : Prop where
  owner : ∀ p i, (s.pc p).holds i → s.lock i = some p
  empty : ∀ p i, s.pc p = .writes i → s.data i = []
  named : ∀ p i, s.pc p = .runs i → s.name = some i ∧ s.data i = pidText (cfg.pid p)
  one : ∀ p q, (s.pc p).returned → (s.pc q).returned → p = q

namespace Inv

variable {cfg : Config N} {s t : State N} {a : Label N} {p q : Fin N} {i : Ino} {pc : Pc}

theorem init (stale : Option (List Char)) : Inv cfg (State.init stale) :=
  ⟨nofun, nofun, nofun, nofun⟩

/-- Two processes that hold the lock on one inode are one process. -/
theorem eq_of_holds (h : Inv cfg s) (hp : (s.pc p).holds i) (hq : (s.pc q).holds i) : p = q :=
  Option.some.inj ((h.owner p i hp).symm.trans (h.owner q i hq))

/-- The step rule: a step of `p` to `pc` that respects what the others hold keeps the invariant if
`pc` itself meets it. -/
theorem of_update (h : Inv cfg s) (hpc : t.pc = update s.pc p pc)
    (hlock : ∀ q i, q ≠ p → s.lock i = some q → t.lock i = some q)
    (hdata : ∀ q i, q ≠ p → (s.pc q).holds i → t.data i = s.data i ∨ t.data i = [])
    (hname : ∀ q i, q ≠ p → s.pc q = .runs i → t.name = s.name ∧ t.data i = s.data i)
    (howner : ∀ i, pc.holds i → t.lock i = some p) (hempty : ∀ i, pc = .writes i → t.data i = [])
    (hnamed : ∀ i, pc = .runs i → t.name = some i ∧ t.data i = pidText (cfg.pid p))
    (hone : pc.returned → ∀ q, q ≠ p → (s.pc q).returned = false) : Inv cfg t := by
  have hne {q} (hq : q ≠ p) : t.pc q = s.pc q := by simp [hpc, hq]
  have hp : t.pc p = pc := by simp [hpc]
  refine ⟨fun q i hq => ?_, fun q i hq => ?_, fun q i hq => ?_, fun q r hq hr => ?_⟩
  · rcases eq_or_ne q p with rfl | hqp
    · exact howner i (hp ▸ hq)
    · exact hlock q i hqp (h.owner q i (hne hqp ▸ hq))
  · rcases eq_or_ne q p with rfl | hqp
    · exact hempty i (hp ▸ hq)
    · rw [hne hqp] at hq
      rcases hdata q i hqp (by simp [hq, Pc.holds]) with hd | hd
      · rw [hd, h.empty q i hq]
      · exact hd
  · rcases eq_or_ne q p with rfl | hqp
    · exact hnamed i (hp ▸ hq)
    · rw [hne hqp] at hq
      rw [(hname q i hqp hq).1, (hname q i hqp hq).2]
      exact h.named q i hq
  · rcases eq_or_ne q p with rfl | hqp
    · rcases eq_or_ne r q with rfl | hrq
      · rfl
      · rw [hp] at hq
        simp [hne hrq, hone hq r hrq] at hr
    · rw [hne hqp] at hq
      rcases eq_or_ne r p with rfl | hrp
      · rw [hp] at hr
        simp [hone hr q hqp] at hq
      · exact h.one q r hq (hne hrp ▸ hr)

/-- A step to a place outside the critical section keeps the invariant. -/
theorem of_outside (h : Inv cfg s) (hpc : t.pc = update s.pc p pc) (ho : pc.outside)
    (hlock : ∀ q i, q ≠ p → s.lock i = some q → t.lock i = some q)
    (hdata : ∀ q i, q ≠ p → (s.pc q).holds i → t.data i = s.data i ∨ t.data i = [])
    (hname : ∀ q i, q ≠ p → s.pc q = .runs i → t.name = s.name ∧ t.data i = s.data i) :
    Inv cfg t := by
  obtain ⟨hholds, hwrites, hruns, hret⟩ := Pc.free_of_outside ho
  exact h.of_update hpc hlock hdata hname (fun i hi => by simp [hholds] at hi)
    (fun i hi => absurd hi (hwrites i)) (fun i hi => absurd hi (hruns i))
    fun hr => by simp [hret] at hr

/-- What `p` writes into an inode that it holds is not in an inode that another process holds. -/
theorem data_of_holds (h : Inv cfg s) (hp : (s.pc p).holds i) {d : List Char} {j : Ino}
    (hqp : q ≠ p) (hq : (s.pc q).holds j) : update s.data i d j = s.data j := by
  refine update_of_ne ?_ _ _
  rintro rfl
  exact hqp (h.eq_of_holds hq hp)

theorem exit_lock (pc : Pc) (hqp : q ≠ p) (hl : s.lock i = some q) :
    (s.exit p pc).lock i = some q := by
  simp [State.exit, hl, hqp]

theorem moves (h : Inv cfg s) (hok : Sound cfg s a) (hm : Moves cfg s a t) : Inv cfg t := by
  have hruns {q i} (hq : s.pc q = .runs i) : (s.pc q).holds i := by simp [hq, Pc.holds]
  cases hm with
  | @exit pc ho =>
    exact h.of_outside rfl ho (fun q i => exit_lock pc) (fun _ _ _ _ => .inl rfl)
      fun _ _ _ _ => ⟨rfl, rfl⟩
  | goto ho =>
    exact h.of_outside rfl ho (fun _ _ _ hl => hl) (fun _ _ _ _ => .inl rfl)
      fun _ _ _ _ => ⟨rfl, rfl⟩
  | create hn ho =>
    refine h.of_outside rfl ho (fun _ _ _ hl => hl) (fun q i _ _ => ?_) fun q i _ hq => ?_
    · rcases eq_or_ne i s.fresh with rfl | hi
      · exact .inr (update_self _ _ _)
      · exact .inl (update_of_ne hi _ _)
    · have hi := (h.named q i hq).1
      simp [hn] at hi
  | @lock i hl =>
    refine h.of_update rfl (fun q j _ hj => ?_) (fun _ _ _ _ => .inl rfl)
      (fun _ _ _ _ => ⟨rfl, rfl⟩) (fun j hj => ?_) nofun nofun nofun
    · have hij : j ≠ i := by
        rintro rfl
        simp [hl] at hj
      simpa [hij] using hj
    · obtain rfl : j = i := by simpa [Pc.holds] using hj
      exact update_self _ _ _
  | @truncate i hp =>
    have hi : (s.pc a.proc).holds i := by simp [hp, Pc.holds]
    refine h.of_update rfl (fun _ _ _ hl => hl)
      (fun q j hqp hq => .inl (h.data_of_holds hi hqp hq))
      (fun q j hqp hq => ⟨rfl, h.data_of_holds hi hqp (hruns hq)⟩) (fun j hj => ?_)
      (fun j hj => ?_) nofun nofun
    · obtain rfl : j = i := by simpa [Pc.holds] using hj
      exact h.owner _ _ hi
    · cases hj
      exact update_self _ _ _
  | @short i d pc hp ho =>
    have hi : (s.pc a.proc).holds i := by simp [hp, Pc.holds]
    exact h.of_outside rfl ho (fun q j => exit_lock pc)
      (fun q j hqp hq => .inl (h.data_of_holds hi hqp hq))
      fun q j hqp hq => ⟨rfl, h.data_of_holds hi hqp (hruns hq)⟩
  | @returns i hr =>
    obtain ⟨hn, hd⟩ := hok i hr
    have hi : (s.pc a.proc).holds i := by simp [hr.1, Pc.holds]
    refine h.of_update rfl (fun _ _ _ hl => hl)
      (fun q j hqp hq => .inl (h.data_of_holds hi hqp hq))
      (fun q j hqp hq => ⟨rfl, h.data_of_holds hi hqp (hruns hq)⟩) (fun j hj => ?_) nofun
      (fun j hj => ?_) fun _ q hqp => ?_
    · obtain rfl : j = i := by simpa [Pc.holds] using hj
      exact h.owner _ _ hi
    · cases hj
      refine ⟨hn, ?_⟩
      simp [State.goto, h.empty _ _ hr.1]
    · cases hq : s.pc q with
      | runs j =>
        obtain rfl : i = j := Option.some.inj (hn.symm.trans (h.named q j hq).1)
        exact absurd (h.eq_of_holds (hruns hq) hi) hqp
      | deleted j => simpa [hq, Pc.leaving] using hd q
      | _ => rfl
  | @unlink i hp =>
    have hone {q} (hqp : q ≠ a.proc) : (s.pc q).returned = false := by
      refine Bool.eq_false_iff.mpr fun hq => hqp (h.one q a.proc hq ?_)
      simp [hp, Pc.returned]
    refine h.of_update rfl (fun _ _ _ hl => hl) (fun _ _ _ _ => .inl rfl)
      (fun q j hqp hq => ?_) (fun j hj => ?_) nofun nofun fun _ q hqp => hone hqp
    · simpa [hq, Pc.returned] using hone hqp
    · obtain rfl : j = i := by simpa [Pc.holds] using hj
      exact h.owner _ _ (hruns hp)

end Inv

theorem oneInstance_of_sound {cfg : Config N} {stale : Option (List Char)} {s : State N}
    (h : (machine cfg).ReachableBy (Sound cfg) (State.init stale) s) : OneInstance cfg s := by
  have hinv : Inv cfg s :=
    h.invariant (.init stale) fun _ _ _ hi hok hn => hi.moves hok (step_moves hn)
  exact ⟨hinv.one, fun p i hp => ⟨i, hinv.named p i hp⟩⟩

/-- Three instances of the same program. -/
def three : Config 3 where
  pidFile := "daemon.pid"
  progName := fun _ => "daemon"
  cloexec := fun p => p = 0
  pid := fun p => 100 + p

/-- One instance after the other, over a stale file. -/
theorem oneInstance_in_turn : ∃ s,
    (machine three).ReachableBy (Sound three) (State.init (some ['7', '\n'])) s ∧
      s.pc 1 = .runs 1 ∧ OneInstance three s := by
  have hr : ∃ s, (machine three).ReachableBy (Sound three) (State.init (some ['7', '\n'])) s ∧
      s.pc 1 = .runs 1 :=
    Machine.ReachableBy.exists_of_runBy
      ([0, 0, 0, 0, 0, 0, 0, 0, 1, 1, 1, 1].map fun p => ⟨p, false, 10⟩) .refl
      ⟨_, rfl, by decide⟩
  obtain ⟨s, hs, hp⟩ := hr
  exact ⟨s, hs, hp, oneInstance_of_sound hs⟩

/-- Process 1 opens the file of process 0, which then deletes it and terminates; process 2 creates
the file anew, and both go on. -/
theorem not_oneInstance : ∃ s, (machine three).Reachable (State.init none) s ∧
    ¬OneInstance three s :=
  Machine.Reachable.exists_of_run
    ([0, 0, 0, 0, 0, 0, 1, 0, 0, 2, 2, 2, 2, 1, 1, 1].map fun p => ⟨p, false, 10⟩) .refl
    ⟨_, rfl, fun h => absurd (h.one 1 2 rfl rfl) (by decide)⟩

end Tlpi.CreatePidFile
