import Mathlib.Logic.Function.Basic
import Mathlib.Logic.Relation

/-!
# The namespace list (`namespaces/namespaces_of.go`)

`addNamespace` enters a namespace in the map `nsList` and, through `addNamespaceToList`, all its
ancestors: the owning or parent user namespaces, or the parent PID namespaces under `--pidns`. An
open file descriptor for a namespace is identified with the namespace. The map is a function to
`Option`; using an entry that is not there is Go's nil dereference.
-/

namespace Tlpi.NamespacesOf

abbrev Errno := Nat

def EPERM : Errno := 1

structure NamespaceID where
  device : UInt64
  inode : UInt64
  deriving DecidableEq, Repr

/-- The key of the special entry for user namespaces that are not visible. -/
def invisUserNS : NamespaceID := ⟨0, 0⟩

/-- The values of `NS_GET_NSTYPE`. -/
inductive NsType
  | mnt | cgroup | uts | ipc | user | pid | net | time
  deriving DecidableEq, Repr

/-- The `CLONE_NEW*` constant. -/
def NsType.flag : NsType → Nat
  | mnt => 0x00020000
  | cgroup => 0x02000000
  | uts => 0x04000000
  | ipc => 0x08000000
  | user => 0x10000000
  | pid => 0x20000000
  | net => 0x40000000
  | time => 0x00000080

structure CmdLineOptions where
  showPidnsHierarchy : Bool
  namespaces : Nat

structure NamespaceAttribs where
  nsType : NsType
  pids : List Int
  children : List NamespaceID
  creatorUID : Nat
  deriving DecidableEq, Repr

structure NamespaceInfo where
  nsList : NamespaceID → Option NamespaceAttribs
  rootNS : NamespaceID

/-- `NamespaceInfo{nsList: make(NamespaceList)}` -/
def NamespaceInfo.empty : NamespaceInfo := ⟨fun _ => none, ⟨0, 0⟩⟩

/-- The answers of the kernel's `ioctl` operations on namespaces. No namespace is its own proper
ancestor, and every chain of ancestors ends. -/
structure Hierarchy where
  nsGetNstype : NamespaceID → Except Errno NsType
  nsGetOwnerUid : NamespaceID → Except Errno Nat
  nsGetUserns : NamespaceID → Except Errno NamespaceID
  nsGetParent : NamespaceID → Except Errno NamespaceID
  wf_userns : WellFounded fun p ns => nsGetUserns ns = .ok p
  wf_parent : WellFounded fun p ns => nsGetParent ns = .ok p

namespace Hierarchy

/-- The `ioctl` that asks for the parent or owner. -/
def ioctl (H : Hierarchy) (opts : CmdLineOptions) (ns : NamespaceID) : Except Errno NamespaceID :=
  if opts.showPidnsHierarchy then H.nsGetParent ns else H.nsGetUserns ns

/-- A call that always fails gives no parents. -/
theorem wf_error (e : Errno) :
    WellFounded fun p (_ : NamespaceID) => (.error e : Except Errno NamespaceID) = .ok p :=
  ⟨fun _ => ⟨_, fun _ h => by cases h⟩⟩

theorem wf_ioctl (H : Hierarchy) (opts : CmdLineOptions) :
    WellFounded fun p ns => H.ioctl opts ns = .ok p := by
  cases h : opts.showPidnsHierarchy with
  | true => simpa [ioctl, h] using H.wf_parent
  | false => simpa [ioctl, h] using H.wf_userns

end Hierarchy

/-- How the program ends early. -/
inductive Stop
  | exit
  | nilDereference
  deriving DecidableEq, Repr

namespace NamespaceInfo

def set (nsi : NamespaceInfo) (ns : NamespaceID) (a : NamespaceAttribs) : NamespaceInfo :=
  { nsi with nsList := Function.update nsi.nsList ns (some a) }

/-- `nsi.nsList[q].children = append(nsi.nsList[q].children, ns)` -/
def addChild (nsi : NamespaceInfo) (q ns : NamespaceID) : Except Stop NamespaceInfo :=
  match nsi.nsList q with
  | none => .error .nilDereference
  | some a => .ok (nsi.set q { a with children := a.children ++ [ns] })

/-- `nsi.nsList[ns].pids = append(nsi.nsList[ns].pids, pid)` -/
def addPid (nsi : NamespaceInfo) (ns : NamespaceID) (pid : Int) : Except Stop NamespaceInfo :=
  match nsi.nsList ns with
  | none => .error .nilDereference
  | some a => .ok (nsi.set ns { a with pids := a.pids ++ [pid] })

/-- The special parent entry, created unless it exists. -/
def ensureInvis (nsi : NamespaceInfo) : NamespaceInfo :=
  if (nsi.nsList invisUserNS).isSome then nsi else nsi.set invisUserNS ⟨.user, [], [], 0⟩

end NamespaceInfo

variable (H : Hierarchy) (opts : CmdLineOptions)

mutual

def addNamespace (nsi : NamespaceInfo) (ns : NamespaceID) (pid : Int) :
    Except Stop NamespaceInfo :=
  let added := if (nsi.nsList ns).isSome then .ok nsi else addNamespaceToList nsi ns
  match added with
  | .error e => .error e
  | .ok nsi => if 0 < pid then nsi.addPid ns pid else .ok nsi
termination_by ((H.wf_ioctl opts).wrap ns, 1)
decreasing_by exact Prod.Lex.right _ Nat.zero_lt_one

def addNamespaceToList (nsi : NamespaceInfo) (ns : NamespaceID) : Except Stop NamespaceInfo :=
  match H.nsGetNstype ns with
  | .error _ => .error .exit
  | .ok nsType =>
    match if nsType = .user then H.nsGetOwnerUid ns else .ok 0 with
    | .error _ => .error .exit
    | .ok creatorUID =>
      let nsi := nsi.set ns ⟨nsType, [], [], creatorUID⟩
      match _h : H.ioctl opts ns with
      | .error e =>
        if e ≠ EPERM then .error .exit
        else if nsType = .user ∨ opts.showPidnsHierarchy then .ok { nsi with rootNS := ns }
        else nsi.ensureInvis.addChild invisUserNS ns
      | .ok parent =>
        match addNamespace nsi parent (-1) with
        | .error e => .error e
        | .ok nsi => nsi.addChild parent ns
termination_by ((H.wf_ioctl opts).wrap ns, 0)
decreasing_by exact Prod.Lex.left _ _ _h

end

/-- A sequence of calls from the outside. -/
def addNamespaces (nsi : NamespaceInfo) :
    List (NamespaceID × Int) → Except Stop NamespaceInfo
  | [] => .ok nsi
  | (ns, pid) :: calls =>
    match addNamespace H opts nsi ns pid with
    | .error e => .error e
    | .ok nsi => addNamespaces nsi calls

/-- The namespaces displayed, each with its level; `none` when the walk uses a missing entry or
does not end within `fuel` levels. -/
def displayNamespaceTree (nsi : NamespaceInfo) :
    Nat → NamespaceID → Nat → Option (List (NamespaceID × Nat))
  | 0, _, _ => none
  | fuel + 1, ns, level =>
    (nsi.nsList ns).bind fun a =>
      let shown := a.nsType = .user ∨ a.nsType.flag &&& opts.namespaces ≠ 0
      (a.children.mapM fun child => displayNamespaceTree nsi fuel child (level + 1)).map fun lines =>
        (if shown then [(ns, level)] else []) ++ lines.flatten

end Tlpi.NamespacesOf
