import Mathlib.Algebra.Group.Nat.Even
import Mathlib.Logic.Relation
import Tlpi.Lib.FdTable

/-!
# Capabilities of a process in a namespace (`namespaces/ns_capable.c`)

The program walks from the target user namespace up to the user namespace of the process, on
descriptors that it opens and closes on the way. The state is the descriptor table, the lines
printed, and the number and success of each `close`.
-/

namespace Tlpi.NsCapable

/-- The user namespaces of a system. `NS_GET_PARENT` of a namespace without a parent fails with
`EPERM`. -/
structure UserNamespaces (ν : Type*) where
  parent : ν → Option ν
  owner : ν → Nat
  depth : ν → Nat
  depth_lt : ∀ {n p}, parent n = some p → depth p < depth n

/-- What a descriptor refers to; `ino` identifies the files that are not user namespaces. -/
inductive File (ν : Type*)
  | userns (n : ν)
  | otherns (ino : Nat) (owner : ν)
  | other (ino : Nat)
  deriving DecidableEq

structure State (ν : Type*) where
  fds : FdTable (File ν)
  out : List String
  closes : List (Nat × Bool)

/-- The process of the command line: its user namespace, its effective UID and the text of its
capabilities. -/
structure Process (ν : Type*) where
  pidStr : String
  userns : ν
  euid : Nat
  caps : String

variable {ν : Type*}

def State.openFile (s : State ν) (f : File ν) : Nat × State ν :=
  (s.fds.lowest, { s with fds := s.fds.alloc f })

/-- `close` fails with `EBADF` when the descriptor is not open. -/
def State.close (s : State ν) (fd : Nat) : Bool × State ν :=
  ((s.fds.get fd).isSome,
    { s with fds := s.fds.close fd, closes := s.closes ++ [(fd, (s.fds.get fd).isSome)] })

def State.printf (s : State ν) (text : List String) : State ν := { s with out := s.out ++ text }

/-- A `close` whose failure ends the program with `errExit(msg)`. -/
def State.closeChecked (s : State ν) (fd : Nat) (msg : String) : Except String Unit × State ν :=
  match s.close fd with
  | (true, s) => (.ok (), s)
  | (false, s) => (.error msg, s)

theorem get_openFile_close {s : State ν} {child : Nat} {f g : File ν}
    (h : s.fds.get child = some f) :
    ((s.openFile g).2.close child).2.fds.get s.fds.lowest = some g := by
  simp only [State.openFile, State.close]
  rw [FdTable.get_close_of_ne (FdTable.lowest_ne h), FdTable.get_alloc_lowest]

/-- A descriptor that is open before a step is still open after it, unless the step closes it. -/
theorem get_openFile_close_of_ne {s : State ν} {f g : File ν} {fd i : Nat} (h : s.fds.get fd = some f)
    (hne : fd ≠ i) : ((s.openFile g).2.close i).2.fds.get fd = some f := by
  simp only [State.openFile, State.close]
  rw [FdTable.get_close_of_ne hne, FdTable.get_alloc_of_ne h]

/-- A descriptor that is opened and closed again leaves no trace. -/
theorem get_openFile_close_lowest (s : State ν) (g : File ν) (fd : Nat) :
    ((s.openFile g).2.close s.fds.lowest).2.fds.get fd = s.fds.get fd := by
  simp only [State.openFile, State.close]
  rw [FdTable.get_close, FdTable.get_alloc]
  split
  · rename_i h
    rw [h, FdTable.get_lowest]
  · rfl

variable [DecidableEq ν] (K : UserNamespaces ν)

def nsEqual (s : State ν) (nsfd1 nsfd2 : Nat) : Except String Bool :=
  match s.fds.get nsfd1, s.fds.get nsfd2 with
  | none, _ => .error "fstat-nsfd1"
  | some _, none => .error "fstat-nsfd2"
  | some f1, some f2 => .ok (f1 = f2)

/-- A bound on the steps up from the namespace of a descriptor. -/
def depthAt (s : State ν) (fd : Nat) : Nat :=
  match s.fds.get fd with
  | some (.userns n) => K.depth n + 1
  | _ => 0

/-- The loop of `is_ancestor_userns`. -/
def isAncestorUserns.loop (fdX child : Nat) (s : State ν) : Except String (Option Nat) × State ν :=
  match _hc : s.fds.get child with
  | some (.userns n) =>
    match _hp : K.parent n with
    | none => (.ok none, s) -- EPERM: no parent
    | some p =>
      let parent := (s.openFile (.userns p)).1
      let s' := (s.openFile (.userns p)).2
      match nsEqual s' parent fdX with
      | .error e => (.error e, s')
      | .ok true => (.ok (some child), (s'.close parent).2)
      | .ok false => loop fdX parent (s'.close child).2
  | _ => (.error "ioctl-NS_GET_PARENT", s)
termination_by depthAt K s child
decreasing_by
  have hparent : depthAt K ((s.openFile (.userns p)).2.close child).2 s.fds.lowest =
      K.depth p + 1 := by
    rw [depthAt, get_openFile_close _hc]
  have hchild : depthAt K s child = K.depth n + 1 := by rw [depthAt, _hc]
  have := K.depth_lt _hp
  simp only [State.openFile] at hparent ⊢
  omega

def isAncestorUserns (fdX fdY : Nat) (s : State ν) : Except String (Option Nat) × State ν :=
  isAncestorUserns.loop K fdX fdY s

def displayProcessCapabilities (proc : Process ν) (s : State ν) : State ν :=
  s.printf ["Capabilities: " ++ proc.caps ++ "\n"]

/-- The scan of `/proc/PID/status`. -/
def euidOfProcess (proc : Process ν) (s : State ν) : Nat × State ν :=
  let (fp, s) := s.openFile (.other 0)
  let (_, s) := s.close fp
  (proc.euid, s)

def uidOfUsernsOwner (fd : Nat) (s : State ν) : Except String Nat :=
  match s.fds.get fd with
  | some (.userns n) => .ok (K.owner n)
  | _ => .error "ioctl-NS_GET_OWNER_UID"

/-- A descriptor for the user namespace of the target, or for the one that owns it. -/
def openTarget (target : File ν) (s : State ν) : Except String Nat × State ν :=
  let (targetNs, s) := s.openFile target
  match target with
  | .userns _ => (.ok targetNs, s)
  | .otherns _ o =>
    let (targetUserns, s) := s.openFile (.userns o)
    let (_, s) := s.close targetNs
    (.ok targetUserns, s)
  | .other _ => (.error "ioctl-NS_GET_NSTYPE", s)

/-- The branch of `main` for a process in an ancestor user namespace. -/
def reportAncestor (proc : Process ν) (descUserns targetUserns : Nat) (s : State ν) :
    Except String Unit × State ν :=
  let (euid, s) := euidOfProcess proc s
  match uidOfUsernsOwner K descUserns s with
  | .error e => (.error e, s)
  | .ok uid =>
    let s := s.printf ["PID " ++ proc.pidStr ++ " is in an ancestor user namespace"]
    let s := if euid = uid then s.printf [" and its effective UID matches\n"]
      else s.printf [", but its effective UID does not match\n"]
    let s := s.printf
      ["the owner of the immediate child user namespace of that ancestor namespace.\n"]
    let s := if euid = uid then
        s.printf ["Therefore, subject to LSM checks, it has all capabilities in the target\n" ++
          "namespace!\n"]
      else displayProcessCapabilities proc (s.printf
        ["Therefore, subject to LSM checks, it has only the capabilities that are in its\n" ++
          "sets, which are:\n"])
    if descUserns ≠ targetUserns then s.closeChecked descUserns "close-desc_userns" else (.ok (), s)

/-- `main` from the comparison of the two namespaces to the end of its verdict. -/
def reportVerdict (proc : Process ν) (pidUserns targetUserns : Nat) (s : State ν) :
    Except String Unit × State ν :=
  match nsEqual s pidUserns targetUserns with
  | .error e => (.error e, s)
  | .ok true =>
    let s := s.printf ["PID " ++ proc.pidStr ++ " is in the target namespace.\n",
      "Subject to LSM checks, it has the following capabilities:\n"]
    (.ok (), displayProcessCapabilities proc s)
  | .ok false =>
    match isAncestorUserns K pidUserns targetUserns s with
    | (.error e, s) => (.error e, s)
    | (.ok none, s) =>
      (.ok (), s.printf ["PID " ++ proc.pidStr ++ " is not in an ancestor user namespace.\n",
        "Therefore, it has no capabilities in the target namespace.\n"])
    | (.ok (some descUserns), s) => reportAncestor K proc descUserns targetUserns s

/-- The last lines of `main`. -/
def finish (targetUserns pidUserns : Nat) (s : State ν) : Except String Unit × State ν :=
  match s.closeChecked targetUserns "close-target_userns" with
  | (.error e, s) => (.error e, s)
  | (.ok (), s) => s.closeChecked pidUserns "close-pid_userns"

/-- The program, with the exit status: `errExit` or success. -/
def main (proc : Process ν) (target : File ν) (s : State ν) : Except String Unit × State ν :=
  match openTarget target s with
  | (.error e, s) => (.error e, s)
  | (.ok targetUserns, s) =>
    let (pidUserns, s) := s.openFile (.userns proc.userns)
    match reportVerdict K proc pidUserns targetUserns s with
    | (.error e, s) => (.error e, s)
    | (.ok (), s) => finish targetUserns pidUserns s

end Tlpi.NsCapable
