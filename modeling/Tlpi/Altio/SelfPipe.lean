import Tlpi.Lib.Machine

/-!
# The self-pipe trick (`altio/self_pipe.c`)

The program waits in `select` for its descriptors and for a signal, whose handler writes a byte to a
pipe that `select` also watches. Both ends of the pipe are nonblocking. The handler can run between
any two steps of the program, so also between a system call and the test of `errno` after it. The
other descriptors become ready at any time, some of them perhaps never.
-/

namespace Tlpi.SelfPipe

inductive Errno where
  | EAGAIN
  | EINTR
  | EINVAL
  | EBADF
  | other
  deriving DecidableEq

/-- What the command line makes of the arguments of `select`. -/
structure Args where
  /-- The seconds, unless the wait is infinite. -/
  timeout : Option Int
  /-- All of the file descriptors are open. -/
  opened : Bool
  /-- How many of them, apart from `pfd[0]`, become ready at some time. -/
  fds : Nat

/-- What `select` fails with at once. -/
def Args.error (args : Args) : Option Errno :=
  if args.timeout.any (· < 0) then some .EINVAL
  else if args.opened then none
  else some .EBADF

/-- Where `handler` is. -/
inductive Handler where
  | save
  | write (savedErrno : Errno)
  | restore (savedErrno : Errno)

inductive Pc where
  /-- Before the call of `select`. -/
  | select
  /-- In `select`. -/
  | wait
  /-- In `select`, which fails when the handler has returned. -/
  | interrupted
  /-- `select` has failed: `errno == EINTR`? -/
  | failed
  /-- `FD_ISSET(pfd[0], &readfds)` -/
  | isset
  | drain
  /-- `read` has failed: `errno == EAGAIN`? -/
  | drained
  | report
  | exit
  | errExit (msg : String)
  deriving DecidableEq

structure State where
  pc : Pc
  errno : Errno
  handler : Option Handler
  /-- The bytes in the pipe. -/
  pipe : Nat
  /-- The signals that are still to come. -/
  signals : Nat
  /-- The other descriptors that are ready, and those that are still to become so. -/
  input : Nat
  coming : Nat
  /-- How many calls of `handler` have written, or found the pipe full. -/
  wrote : Nat
  /-- `wrote` when `select` returned, what it returned, and whether `pfd[0]` was set. -/
  wroteAt : Nat
  ready : Nat
  readable : Bool
  /-- `A signal was caught` has been printed. -/
  caught : Bool

inductive Label where
  | main
  /-- `select` returns because there is input. -/
  | ready
  | timeout
  /-- One of the other descriptors becomes ready. -/
  | input
  | signal
  | handler

def State.init (args : Args) (errno : Errno) (signals : Nat) : State :=
  ⟨.select, errno, none, 0, signals, 0, args.fds, 0, 0, 0, false, false⟩

def main (args : Args) (s : State) : Option State :=
  match s.pc with
  | .select =>
    match args.error with
    | none => some { s with pc := .wait }
    | some errno => some { s with errno := errno, pc := .failed }
  | .interrupted => some { s with errno := .EINTR, pc := .failed }
  | .failed => some { s with pc := if s.errno = .EINTR then .select else .errExit "select" }
  | .isset =>
    some (if s.readable then { s with caught := true, pc := .drain } else { s with pc := .report })
  | .drain =>
    some (if s.pipe = 0 then { s with errno := .EAGAIN, pc := .drained }
      else { s with pipe := s.pipe - 1 })
  | .drained => some { s with pc := if s.errno = .EAGAIN then .report else .errExit "read" }
  | .report => some { s with pc := .exit }
  | .wait | .exit | .errExit _ => none

/-- A pipe has room for `cap` bytes. -/
def handler (cap : Nat) (s : State) : Handler → State
  | .save => { s with handler := some (.write s.errno) }
  | .write savedErrno =>
    let s := { s with wrote := s.wrote + 1, handler := some (.restore savedErrno) }
    if s.pipe < cap then { s with pipe := s.pipe + 1 } else { s with errno := .EAGAIN }
  | .restore savedErrno => { s with errno := savedErrno, handler := none }

def step (cap : Nat) (args : Args) (s : State) (a : Label) : Option State :=
  match s.handler, a with
  | some h, .handler => some (handler cap s h)
  | none, .main => main args s
  | none, .ready =>
    if s.pc = .wait ∧ 0 < s.input + s.pipe then
      some { s with
        pc := .isset, wroteAt := s.wrote, readable := 0 < s.pipe
        ready := s.input + if 0 < s.pipe then 1 else 0 }
    else none
  | none, .timeout =>
    if s.pc = .wait ∧ args.timeout.isSome ∧ s.input + s.pipe = 0 then
      some { s with pc := .isset, wroteAt := s.wrote, readable := false, ready := 0 }
    else none
  | _, .input =>
    if 0 < s.coming then some { s with input := s.input + 1, coming := s.coming - 1 } else none
  | none, .signal =>
    if 0 < s.signals ∧ s.pc ≠ .exit then
      some { s with
        signals := s.signals - 1, handler := some .save
        pc := if s.pc = .wait then .interrupted else s.pc }
    else none
  | _, _ => none

def machine (cap : Nat) (args : Args) : Machine State Label := ⟨step cap args⟩

/-! ### What the program relies on -/

/-- The value of `errno` once the handler has returned. -/
def State.mainErrno (s : State) : Errno :=
  match s.handler with
  | none | some .save => s.errno
  | some (.write savedErrno) | some (.restore savedErrno) => savedErrno

/-- Until `main` reads, the pipe has a byte if the handler has written. -/
def State.Signalled (s : State) : Prop := 0 < s.pipe ↔ 0 < s.wrote

/-- `pfd[0]` was set if the handler had written by the time that `select` returned. -/
def State.Seen (s : State) : Prop := s.readable = true ↔ 0 < s.wroteAt

def State.Ok (args : Args) (s : State) : Prop :=
  match s.pc with
  | .select => s.caught = false ∧ s.Signalled
  | .wait | .interrupted => args.error = none ∧ s.caught = false ∧ s.Signalled
  | .failed => s.mainErrno = args.error.getD .EINTR ∧ s.caught = false ∧ s.Signalled
  | .isset => args.error = none ∧ s.caught = false ∧ s.Seen
  | .drain | .report | .exit => args.error = none ∧ s.caught = s.readable ∧ s.Seen
  | .drained => s.mainErrno = .EAGAIN ∧ args.error = none ∧ s.caught = s.readable ∧ s.Seen
  | .errExit msg => msg = "select" ∧ args.error.isSome

section

variable {cap : Nat} {args : Args} {s t : State} {signals : Nat} {errno : Errno}

theorem ok_init : (State.init args errno signals).Ok args := ⟨rfl, Iff.rfl⟩

theorem Args.getD_error : args.error.getD .EINTR = .EINTR ↔ args.error = none := by
  rw [Args.error]
  split
  · exact iff_of_false nofun nofun
  · split
    · exact iff_of_true rfl rfl
    · exact iff_of_false nofun nofun

/-- After an error of `select` the program is at its end, unless a signal was the reason. -/
def Pc.rank (args : Args) : Pc → Nat
  | .interrupted => 9
  | .failed => if args.error = none then 8 else 1
  | .select => 7
  | .wait => 6
  | .isset => 4
  | .drain => 3
  | .drained => 2
  | .report => 1
  | .exit | .errExit _ => 0

def Handler.rank : Option Handler → Nat
  | none => 0
  | some (.restore _) => 1
  | some (.write _) => 4
  | some .save => 5

/-- A signal may send `select` back once and adds a byte that has to be read. -/
def State.rank (args : Args) (s : State) : Nat :=
  10 * s.signals + Handler.rank s.handler + s.pc.rank args + s.pipe + s.coming

theorem rank_main (K : s.Ok args) (hh : s.handler = none) (hn : main args s = some t) :
    t.rank args < s.rank args := by
  rw [State.Ok] at K
  rw [main] at hn
  split at hn <;> rename_i hpc <;> rw [hpc] at K
  case h_1 =>
    split at hn
    · cases hn
      simp [State.rank, hpc, Pc.rank]
    · next e he =>
      cases hn
      simp [State.rank, hpc, Pc.rank, he]
  case h_2 =>
    cases hn
    simp [State.rank, hpc, Pc.rank, K.1]
  case h_3 =>
    have herrno : s.errno = args.error.getD .EINTR := by rw [← K.1, State.mainErrno, hh]
    cases hn
    by_cases he : s.errno = .EINTR
    · simp [State.rank, hpc, Pc.rank, he, Args.getD_error.mp (herrno.symm.trans he)]
    · have he' : args.error ≠ none := fun h => he (herrno.trans (Args.getD_error.mpr h))
      simp [State.rank, hpc, Pc.rank, he, he']
  case h_4 =>
    split at hn <;> cases hn <;> simp [State.rank, hpc, Pc.rank]
  case h_5 =>
    split at hn
    · cases hn
      simp [State.rank, hpc, Pc.rank]
    · next hpipe =>
      cases hn
      simp only [State.rank]
      omega
  case h_6 =>
    have herrno : s.errno = .EAGAIN := by rw [← K.1, State.mainErrno, hh]
    rw [if_pos herrno] at hn
    cases hn
    simp [State.rank, hpc, Pc.rank]
  case h_7 =>
    cases hn
    simp [State.rank, hpc, Pc.rank]
  all_goals cases hn

theorem rank_step {a : Label} (K : s.Ok args) (hn : (machine cap args).next s a = some t) :
    t.rank args < s.rank args := by
  simp only [machine, SelfPipe.step] at hn
  split at hn
  · next h hh =>
    cases hn
    cases h with
    | save => simp [State.rank, handler, hh, Handler.rank]
    | write savedErrno =>
      by_cases hlt : s.pipe < cap
      · simp [State.rank, handler, hh, hlt, Handler.rank]
        omega
      · simp [State.rank, handler, hh, hlt, Handler.rank]
    | restore savedErrno => simp [State.rank, handler, hh, Handler.rank]
  · next hh => exact rank_main K hh hn
  · next hh =>
    simp only [Option.ite_none_right_eq_some, Option.some.injEq] at hn
    obtain ⟨⟨hpc, -⟩, rfl⟩ := hn
    simp [State.rank, hpc, Pc.rank]
  · next hh =>
    simp only [Option.ite_none_right_eq_some, Option.some.injEq] at hn
    obtain ⟨⟨hpc, -, -⟩, rfl⟩ := hn
    simp [State.rank, hpc, Pc.rank]
  · simp only [Option.ite_none_right_eq_some, Option.some.injEq] at hn
    obtain ⟨hpos, rfl⟩ := hn
    simp only [State.rank]
    omega
  · next hh =>
    simp only [Option.ite_none_right_eq_some, Option.some.injEq] at hn
    obtain ⟨⟨hpos, -⟩, rfl⟩ := hn
    have hle : (if s.pc = .wait then Pc.interrupted else s.pc).rank args ≤ s.pc.rank args + 3 := by
      split
      · next hpc => simp [hpc, Pc.rank]
      · omega
    simp only [State.rank, hh, Handler.rank]
    omega
  · cases hn

/-! ### The runs -/

/-- Signals that have not led to a write yet. -/
def Handler.pending : Option Handler → Nat
  | some .save | some (.write _) => 1
  | none | some (.restore _) => 0

def State.total (s : State) : Nat := s.signals + Handler.pending s.handler + s.wrote

/-- How a run ends: with an error if `select` refuses its arguments, and otherwise at the end of
`main`, unless there is nothing that `select` could wait for. -/
def State.Ended (args : Args) (signals : Nat) (s : State) : Prop :=
  if args.error.isSome then s.pc = .errExit "select"
  else s.pc = .exit ∨ s.pc = .wait ∧ args.timeout = none ∧ args.fds = 0 ∧ signals = 0

/-- `select` waits only if no signal has come and nothing else can end it. -/
theorem exists_step (K : s.Ok args) (hfds : s.input + s.coming = args.fds) :
    (∃ a t, (machine cap args).next s a = some t) ∨ s.Ended args s.total := by
  cases hh : s.handler with
  | some h => exact .inl ⟨.handler, handler cap s h, by simp only [machine, step, hh]⟩
  | none =>
    have hmain : (∃ t, main args s = some t) → ∃ a t, (machine cap args).next s a = some t := by
      rintro ⟨t, ht⟩
      exact ⟨.main, t, by simp only [machine, step, hh, ht]⟩
    rw [State.Ok] at K
    cases hpc : s.pc with
    | wait =>
      rw [hpc] at K
      by_contra hnot
      rw [not_or] at hnot
      obtain ⟨hnone, hidle⟩ := hnot
      have hstuck : ∀ a, (machine cap args).next s a = none := fun a => by
        cases h : (machine cap args).next s a with
        | none => rfl
        | some t => exact absurd ⟨a, t, h⟩ hnone
      have hready := hstuck .ready
      have htimeout := hstuck .timeout
      have hinput := hstuck .input
      have hsignal := hstuck .signal
      simp only [machine, step, hh, hpc, true_and, ite_eq_right_iff, reduceCtorEq, imp_false,
        ne_eq, not_false_eq_true, and_true] at hready htimeout hinput hsignal
      have hpipe : s.input = 0 ∧ s.pipe = 0 := by omega
      have hsignals : s.signals = 0 := by omega
      have htimed : args.timeout = none := by
        refine Option.not_isSome_iff_eq_none.mp fun h => htimeout ⟨h, ?_⟩
        rw [hpipe.1, hpipe.2]
      have hwrote : s.wrote = 0 := by
        have := K.2.2
        rw [State.Signalled, hpipe.2] at this
        omega
      refine hidle ?_
      rw [State.Ended, K.1, if_neg (by decide)]
      exact .inr ⟨hpc, htimed, by omega, by rw [State.total, hh, hsignals, hwrote]; rfl⟩
    | exit =>
      rw [hpc] at K
      rw [State.Ended, K.1, if_neg (by decide)]
      exact .inr (.inl hpc)
    | errExit msg =>
      rw [hpc] at K
      obtain ⟨rfl, he⟩ := K
      rw [State.Ended, if_pos he]
      exact .inr hpc
    | select =>
      cases he : args.error with
      | none => exact .inl (hmain ⟨_, by rw [main, hpc, he]⟩)
      | some errno => exact .inl (hmain ⟨_, by rw [main, hpc, he]⟩)
    | _ => exact .inl (hmain ⟨_, by rw [main, hpc]⟩)

end

end Tlpi.SelfPipe
