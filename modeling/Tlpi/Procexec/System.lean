import Tlpi.Lib.Signals

/-!
# An implementation of `system()` (`ch24-procexec/system.cpp`)

While the command runs, `fineSystem` blocks `SIGCHLD` and ignores `SIGINT` and `SIGQUIT`. The child
gets back what the caller had, as far as that survives an `exec()`, and so does the caller in the
end.
-/

namespace Tlpi.System

open Signals

abbrev Errno := Nat

def EINTR : Errno := 4

/-- How the calls of `waitpid()` end, up to the first that returns a status. -/
inductive Waits where
  | status (status : Nat)
  | fails (e : Errno) (rest : Waits)
  deriving Repr

inductive Fork where
  | fails (e : Errno)
  | child (childPid : Nat) (waits : Waits)
  deriving Repr

structure Env where
  fork : Fork
  /-- What a signal call leaves in `errno`. -/
  signalErrno : Errno → Errno

structure Caller where
  signals : SigState
  errno : Errno

/-- The child at its `execl()`. -/
structure AtExec where
  signals : SigState
  path : String
  argv : List String

/-- The caller and the value that it gets, with the child, if there is one. -/
structure Result where
  caller : Caller
  value : Int
  child : Option AtExec

namespace Caller

variable (env : Env) (p : Caller)

def sigprocmask (how : How) (set : Finset Signal) : Caller × Finset Signal :=
  let (signals, old) := p.signals.sigprocmask how set
  (⟨signals, env.signalErrno p.errno⟩, old)

def sigaction (sig : Signal) (act : SigAction) : Caller × SigAction :=
  let (signals, old) := p.signals.sigaction sig act
  (⟨signals, env.signalErrno p.errno⟩, old)

end Caller

/-- The loop around `waitpid()`: the status, and `errno` afterwards. -/
def waitLoop (errno : Errno) : Waits → Int × Errno
  | .status status => (status, errno)
  | .fails e rest => if e ≠ EINTR then (-1, e) else waitLoop e rest

def saIgnore : SigAction := ⟨.ign, 0, ∅⟩

def saDefault : SigAction := ⟨.dfl, 0, ∅⟩

/-- The child from `fork()` to `execl()`. -/
def runChild (env : Env) (p : Caller) (origMask : Finset Signal) (saOrigInt saOrigQuit : SigAction)
    (command : String) : AtExec :=
  let p := if saOrigInt.handler ≠ .ign then (p.sigaction env SIGINT saDefault).1 else p
  let p := if saOrigQuit.handler ≠ .ign then (p.sigaction env SIGQUIT saDefault).1 else p
  let p := (p.sigprocmask env .setmask origMask).1
  ⟨p.signals, "/bin/sh", ["sh", "-c", command]⟩

/-- `fine_system(command)` for a command that is not `NULL`. -/
def fineSystemOf (env : Env) (p : Caller) (command : String) : Result :=
  let (p, origMask) := p.sigprocmask env .block {SIGCHLD}
  let (p, saOrigInt) := p.sigaction env SIGINT saIgnore
  let (p, saOrigQuit) := p.sigaction env SIGQUIT saIgnore
  let (child, status, errno) : Option AtExec × Int × Errno :=
    match env.fork with
    | .fails e => (none, -1, e)
    | .child _ waits =>
      (some (runChild env p origMask saOrigInt saOrigQuit command), waitLoop p.errno waits)
  let p := { p with errno }
  let savedErrno := p.errno
  let p := (p.sigprocmask env .setmask origMask).1
  let p := (p.sigaction env SIGINT saOrigInt).1
  let p := (p.sigaction env SIGQUIT saOrigQuit).1
  ⟨{ p with errno := savedErrno }, status, child⟩

def fineSystem (env : Env) (p : Caller) : Option String → Result
  | none =>
    let r := fineSystemOf env p ":"
    { r with value := if r.value = 0 then 1 else 0 }
  | some command => fineSystemOf env p command

/-! ### What the caller is promised -/

/-- `Waited waits status err`: the child's status, or -1 with the error of the `waitpid()` that
failed, after any number of interruptions. -/
inductive Waited : Waits → Int → Option Errno → Prop where
  | status (status : Nat) : Waited (.status status) status none
  | interrupted {rest : Waits} {status : Int} {err : Option Errno} :
    Waited rest status err → Waited (.fails EINTR rest) status err
  | failed {e : Errno} {rest : Waits} : e ≠ EINTR → Waited (.fails e rest) (-1) (some e)

/-- The child's status, or -1 with the error of the call that failed. -/
inductive Ended : Fork → Int → Option Errno → Prop where
  | forkFailed (e : Errno) : Ended (.fails e) (-1) (some e)
  | waited {childPid : Nat} {waits : Waits} {status : Int} {err : Option Errno} :
    Waited waits status err → Ended (.child childPid waits) status err

/-- The signal that is ignored stays so, and any other action is the default again. -/
def Reset (orig now : Disposition) : Prop :=
  if orig.handler = .ign then now.handler = .ign else now = saDefault.disposition

/-- The caller has its signal state back, with the `status` of the child or -1 and the error of the
call that failed; and so has the child, as far as that survives an `exec()`. -/
structure Restores (fork : Fork) (p : Caller) (status : Int) (r : Result) : Prop where
  mask : r.caller.signals.mask = p.signals.mask
  disposition : r.caller.signals.disposition = p.signals.disposition
  ended : ∃ err, Ended fork status err ∧ ∀ e, err = some e → r.caller.errno = e
  child : r.child = none ↔ ∃ e, fork = .fails e
  childMask : ∀ c, r.child = some c → c.signals.mask = p.signals.mask
  childReset : ∀ c, r.child = some c → ∀ sig,
    if sig = SIGINT ∨ sig = SIGQUIT then
      Reset (p.signals.disposition sig) (c.signals.disposition sig)
    else c.signals.disposition sig = p.signals.disposition sig

theorem waitLoop_waited (errno : Errno) (waits : Waits) :
    ∃ err, Waited waits (waitLoop errno waits).1 err ∧
      ∀ e, err = some e → (waitLoop errno waits).2 = e := by
  induction waits generalizing errno with
  | status status => exact ⟨none, .status status, nofun⟩
  | fails e rest ih =>
    unfold waitLoop
    split
    · next he => exact ⟨some e, .failed he, fun _ => Option.some.inj⟩
    · next he =>
      obtain rfl := not_not.mp he
      obtain ⟨err, hwaited, herr⟩ := ih EINTR
      exact ⟨err, .interrupted hwaited, herr⟩

section
variable (env : Env) (p : Caller)

@[simp] theorem sigprocmask_signals (how : How) (set : Finset Signal) :
    (p.sigprocmask env how set).1.signals = (p.signals.sigprocmask how set).1 := rfl

@[simp] theorem sigprocmask_old (how : How) (set : Finset Signal) :
    (p.sigprocmask env how set).2 = p.signals.mask.set := rfl

@[simp] theorem sigaction_signals (sig : Signal) (act : SigAction) :
    (p.sigaction env sig act).1.signals = (p.signals.sigaction sig act).1 := rfl

@[simp] theorem sigaction_old (sig : Signal) (act : SigAction) :
    (p.sigaction env sig act).2 = (p.signals.disposition sig).sigAction := rfl

end

theorem SIGQUIT_ne_SIGINT : SIGQUIT ≠ SIGINT := by decide

/-- The signal state of the caller while the command runs. -/
def during (s : SigState) : SigState :=
  (((s.sigprocmask .block {SIGCHLD}).1.sigaction SIGINT saIgnore).1.sigaction SIGQUIT saIgnore).1

/-- Both dispositions and the mask are set again to what they were. -/
theorem restore_during (s : SigState) :
    ((((during s).sigprocmask .setmask s.mask.set).1.sigaction SIGINT
      (s.disposition SIGINT).sigAction).1.sigaction SIGQUIT (s.disposition SIGQUIT).sigAction).1 = s := by
  refine SigState.ext ?_ (funext fun sig => ?_)
  · simp [during]
  · simp only [SigState.sigaction_disposition, SigState.sigprocmask_disposition,
      Disposition.disposition_sigAction, during]
    split
    · next h => rw [h]
    split
    · next h => rw [h]
    · rfl

/-- The disposition of a signal that is set to the default unless it was ignored. -/
theorem unlessIgnored_disposition (env : Env) (p : Caller) (sig sig' : Signal) (orig : SigAction) :
    (if orig.handler ≠ .ign then (p.sigaction env sig saDefault).1 else p).signals.disposition sig' =
      if sig' = sig ∧ orig.handler ≠ .ign then saDefault.disposition
      else p.signals.disposition sig' := by
  by_cases h : orig.handler ≠ .ign
  · simp only [if_pos h, sigaction_signals, SigState.sigaction_disposition, and_iff_left h]
  · simp only [h, and_false, if_false]

/-- While the command runs, the two signals are ignored, and the rest is as it was. -/
theorem during_disposition (s : SigState) (sig : Signal) :
    (during s).disposition sig =
      if sig = SIGINT ∨ sig = SIGQUIT then saIgnore.disposition else s.disposition sig := by
  simp only [during, SigState.sigaction_disposition, SigState.sigprocmask_disposition]
  split
  · next h => rw [if_pos (.inr h)]
  · next h => simp only [h, or_false]

theorem runChild_mask (env : Env) (p : Caller) (m : SigMask) (saOrigInt saOrigQuit : SigAction)
    (command : String) :
    (runChild env p m.set saOrigInt saOrigQuit command).signals.mask = m := by
  simp [runChild]

theorem runChild_disposition (env : Env) (p : Caller) (origMask : Finset Signal)
    (saOrigInt saOrigQuit : SigAction) (command : String) (sig : Signal) :
    (runChild env p origMask saOrigInt saOrigQuit command).signals.disposition sig =
      if sig = SIGQUIT ∧ saOrigQuit.handler ≠ .ign ∨ sig = SIGINT ∧ saOrigInt.handler ≠ .ign then
        saDefault.disposition
      else p.signals.disposition sig := by
  rw [runChild, sigprocmask_signals, SigState.sigprocmask_disposition, unlessIgnored_disposition,
    unlessIgnored_disposition, ite_or]

/-- The child ignores the two signals that the caller ignored, and has the default for the others. -/
theorem runChild_reset {env : Env} {p : Caller} {s : SigState} (hp : p.signals = during s)
    (origMask : Finset Signal) (command : String) (sig : Signal) :
    if sig = SIGINT ∨ sig = SIGQUIT then
      Reset (s.disposition sig) ((runChild env p origMask (s.disposition SIGINT).sigAction
        (s.disposition SIGQUIT).sigAction command).signals.disposition sig)
    else (runChild env p origMask (s.disposition SIGINT).sigAction
      (s.disposition SIGQUIT).sigAction command).signals.disposition sig = s.disposition sig := by
  rw [runChild_disposition, hp, during_disposition]
  by_cases hsig : sig = SIGINT ∨ sig = SIGQUIT
  · have horig : (sig = SIGQUIT ∧ (s.disposition SIGQUIT).sigAction.handler ≠ .ign ∨
        sig = SIGINT ∧ (s.disposition SIGINT).sigAction.handler ≠ .ign) ↔
        (s.disposition sig).handler ≠ .ign := by
      obtain rfl | rfl := hsig
      · simp [SIGQUIT_ne_SIGINT.symm, Disposition.sigAction]
      · simp [SIGQUIT_ne_SIGINT, Disposition.sigAction]
    rw [if_pos hsig, if_pos hsig, Reset]
    split
    · next hign =>
      rw [if_neg (horig.not.mpr (not_not_intro hign))]
      rfl
    · next hign => rw [if_pos (horig.mpr hign)]
  · obtain ⟨hint, hquit⟩ := not_or.mp hsig
    rw [if_neg hsig, if_neg hsig, if_neg (by simp [hint, hquit])]

/-- The action for `SIGQUIT` is saved after the one for `SIGINT` has been changed. -/
theorem saOrigQuit_eq (s : SigState) :
    ((s.sigprocmask .block {SIGCHLD}).1.sigaction SIGINT saIgnore).1.disposition SIGQUIT =
      s.disposition SIGQUIT := by
  rw [SigState.sigaction_disposition, if_neg SIGQUIT_ne_SIGINT, SigState.sigprocmask_disposition]

theorem fineSystemOf_signals (env : Env) (p : Caller) (command : String) :
    (fineSystemOf env p command).caller.signals = p.signals := by
  have hrestore := restore_during p.signals
  rw [← saOrigQuit_eq p.signals] at hrestore
  unfold fineSystemOf
  cases env.fork <;> exact hrestore

theorem fineSystemOf_ended (env : Env) (p : Caller) (command : String) :
    ∃ err, Ended env.fork (fineSystemOf env p command).value err ∧
      ∀ e, err = some e → (fineSystemOf env p command).caller.errno = e := by
  unfold fineSystemOf
  cases env.fork with
  | fails e => exact ⟨some e, .forkFailed e, fun _ => Option.some.inj⟩
  | child childPid waits =>
    obtain ⟨err, hwaited, herr⟩ := waitLoop_waited _ waits
    exact ⟨err, .waited hwaited, herr⟩

theorem fineSystemOf_child {env : Env} {p : Caller} {command : String} {c : AtExec}
    (h : (fineSystemOf env p command).child = some c) :
    ∃ q : Caller, q.signals = during p.signals ∧
      c = runChild env q p.signals.mask.set (p.signals.disposition SIGINT).sigAction
        (p.signals.disposition SIGQUIT).sigAction command := by
  unfold fineSystemOf at h
  cases hf : env.fork with
  | fails e =>
    rw [hf] at h
    cases h
  | child childPid waits =>
    rw [hf] at h
    refine ⟨⟨during p.signals, env.signalErrno (env.signalErrno (env.signalErrno p.errno))⟩, rfl,
      (Option.some.inj h).symm.trans ?_⟩
    rw [← saOrigQuit_eq p.signals]
    rfl

theorem fineSystemOf_restores (env : Env) (p : Caller) (command : String) :
    Restores env.fork p (fineSystemOf env p command).value (fineSystemOf env p command) where
  mask := by rw [fineSystemOf_signals]
  disposition := by rw [fineSystemOf_signals]
  ended := fineSystemOf_ended env p command
  child := by
    unfold fineSystemOf
    cases env.fork <;> simp
  childMask c hc := by
    obtain ⟨q, -, rfl⟩ := fineSystemOf_child hc
    exact runChild_mask ..
  childReset c hc sig := by
    obtain ⟨q, hq, rfl⟩ := fineSystemOf_child hc
    exact runChild_reset hq ..

/-- For every command the signal state is left as it was; with `NULL` the result says whether the
child's status was 0. -/
theorem fineSystem_restores (env : Env) (p : Caller) (command : Option String) :
    ∃ status, Restores env.fork p status (fineSystem env p command) ∧
      (fineSystem env p command).value =
        if command.isSome then status else if status = 0 then 1 else 0 := by
  cases command with
  | none =>
    have h := fineSystemOf_restores env p ":"
    exact ⟨_, ⟨h.mask, h.disposition, h.ended, h.child, h.childMask, h.childReset⟩, rfl⟩
  | some command => exact ⟨_, fineSystemOf_restores env p command, rfl⟩

/-- A shell is available. -/
theorem fineSystem_null_available :
    ¬∃ status, Restores (.child 1 (.status 0)) ⟨⟨.of ∅, fun _ => saDefault.disposition⟩, 0⟩ status
        (fineSystem ⟨.child 1 (.status 0), id⟩ ⟨⟨.of ∅, fun _ => saDefault.disposition⟩, 0⟩ none) ∧
      (fineSystem ⟨.child 1 (.status 0), id⟩ ⟨⟨.of ∅, fun _ => saDefault.disposition⟩, 0⟩
        none).value = status := by
  rintro ⟨status, hrestores, hvalue⟩
  obtain ⟨err, hended, -⟩ := hrestores.ended
  cases hended with
  | waited hwaited =>
    cases hwaited
    exact absurd hvalue (by decide)

end Tlpi.System
