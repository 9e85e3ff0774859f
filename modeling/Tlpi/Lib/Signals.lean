import Mathlib.Data.Finset.Basic
import Mathlib.Logic.Function.Basic

/-!
# Signal masks and dispositions

The part of a process's state that `sigprocmask()` and `sigaction()` read and change. A program may
ask for any set of signals, but `SIGKILL` and `SIGSTOP` are never blocked.
-/

namespace Tlpi.Signals

abbrev Signal := Nat

def SIGINT : Signal := 2
def SIGQUIT : Signal := 3
def SIGKILL : Signal := 9
def SIGCHLD : Signal := 17
def SIGSTOP : Signal := 19

/-- A set of signals that can be blocked. -/
@[ext] structure SigMask where
  set : Finset Signal
  kill : SIGKILL ∉ set
  stop : SIGSTOP ∉ set
  deriving DecidableEq

/-- The signals of a set that can be blocked. -/
def SigMask.of (set : Finset Signal) : SigMask :=
  ⟨set \ {SIGKILL, SIGSTOP}, by simp, by simp⟩

@[simp] theorem SigMask.of_set (m : SigMask) : SigMask.of m.set = m := by
  refine SigMask.ext (Finset.sdiff_eq_self_iff_disjoint.mpr (Finset.disjoint_left.mpr ?_))
  intro sig hmem hsig
  obtain rfl | rfl : sig = SIGKILL ∨ sig = SIGSTOP := by simpa using hsig
  · exact m.kill hmem
  · exact m.stop hmem

inductive Handler where
  | dfl
  | ign
  | func (addr : Nat)
  deriving DecidableEq, Repr

/-- `struct sigaction` -/
structure SigAction where
  handler : Handler
  flags : Nat
  mask : Finset Signal

/-- What is done on a signal. -/
@[ext] structure Disposition where
  handler : Handler
  flags : Nat
  mask : SigMask
  deriving DecidableEq

def SigAction.disposition (act : SigAction) : Disposition := ⟨act.handler, act.flags, .of act.mask⟩

def Disposition.sigAction (d : Disposition) : SigAction := ⟨d.handler, d.flags, d.mask.set⟩

@[simp] theorem Disposition.disposition_sigAction (d : Disposition) :
    d.sigAction.disposition = d := by
  rw [SigAction.disposition, Disposition.sigAction, SigMask.of_set]

@[ext] structure SigState where
  mask : SigMask
  disposition : Signal → Disposition

inductive How where
  | block
  | unblock
  | setmask
  deriving DecidableEq, Repr

namespace SigState

/-- The state afterwards, and the old mask. -/
def sigprocmask (s : SigState) (how : How) (set : Finset Signal) : SigState × Finset Signal :=
  let mask := match how with
    | .block => s.mask.set ∪ set
    | .unblock => s.mask.set \ set
    | .setmask => set
  ({ s with mask := .of mask }, s.mask.set)

/-- The state afterwards, and the old action. -/
def sigaction (s : SigState) (sig : Signal) (act : SigAction) : SigState × SigAction :=
  ({ s with disposition := Function.update s.disposition sig act.disposition },
    (s.disposition sig).sigAction)

variable {s : SigState}

@[simp] theorem sigprocmask_disposition (how : How) (set : Finset Signal) :
    (s.sigprocmask how set).1.disposition = s.disposition := rfl

@[simp] theorem sigprocmask_old (how : How) (set : Finset Signal) :
    (s.sigprocmask how set).2 = s.mask.set := rfl

@[simp] theorem sigprocmask_setmask (set : Finset Signal) :
    (s.sigprocmask .setmask set).1.mask = .of set := rfl

@[simp] theorem sigaction_mask (sig : Signal) (act : SigAction) :
    (s.sigaction sig act).1.mask = s.mask := rfl

@[simp] theorem sigaction_old (sig : Signal) (act : SigAction) :
    (s.sigaction sig act).2 = (s.disposition sig).sigAction := rfl

@[simp] theorem sigaction_disposition (sig sig' : Signal) (act : SigAction) :
    (s.sigaction sig act).1.disposition sig' =
      if sig' = sig then act.disposition else s.disposition sig' := by
  simp [sigaction, Function.update_apply]

end SigState

end Tlpi.Signals
