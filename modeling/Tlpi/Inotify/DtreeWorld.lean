import Mathlib.Logic.Function.Basic
import Tlpi.Lib.Machine
import Tlpi.Lib.Replay
import Tlpi.Inotify.DtreeRead

/-!
# The monitor and the directories it watches

A file system of directories, the kernel's inotify instance for it, and the monitor. A process makes,
removes and renames directories in the monitored trees, in any interleaving with the steps of the
monitor. The queue holds the two events of a rename between watched directories as one entry, since
they are adjacent and delivered together; the queue does not overflow.
-/

namespace Tlpi.InotifyDtree

/-- A directory, by its inode and its current pathname. -/
structure Dir where
  ino : Nat
  path : CString
  deriving DecidableEq, Repr

/-- The directory, with the pathname it has after `old` was renamed to `new`. -/
def Dir.move (old new : CString) (d : Dir) : Dir :=
  if isUnder old d.path then { d with path := new ++ d.path.drop old.length } else d

/-- A watch of the inotify instance. -/
structure Mark where
  wd : Int
  ino : Nat
  one_le : 1 ≤ wd
  deriving DecidableEq

/-- An entry of the queue. -/
inductive Notice
  | create (wd : Int) (name : CString)
  | movedTo (wd : Int) (name : CString) (cookie : BitVec 32)
  | movedFrom (wd : Int) (name : CString) (cookie : BitVec 32)
  | renamed (wd : Int) (name : CString) (wd' : Int) (name' : CString) (cookie : BitVec 32)
  | deleteSelf (wd : Int)
  | ignored (wd : Int)
  deriving DecidableEq, Repr

namespace Notice

/-- The length of a name in an event, with its NUL and padding. -/
def nameLen (name : CString) : Nat := (name.length / 16 + 1) * 16

/-- The first event of an entry. -/
def event : Notice → Event
  | create wd name => ⟨wd, IN_CREATE ||| IN_ISDIR, 0, nameLen name, name⟩
  | movedTo wd name cookie => ⟨wd, IN_MOVED_TO ||| IN_ISDIR, cookie, nameLen name, name⟩
  | movedFrom wd name cookie => ⟨wd, IN_MOVED_FROM ||| IN_ISDIR, cookie, nameLen name, name⟩
  | renamed wd name _ _ cookie => ⟨wd, IN_MOVED_FROM ||| IN_ISDIR, cookie, nameLen name, name⟩
  | deleteSelf wd => ⟨wd, IN_DELETE_SELF, 0, 0, []⟩
  | ignored wd => ⟨wd, IN_IGNORED, 0, 0, []⟩

/-- The second event of an entry. -/
def second : Notice → Option Event
  | renamed _ _ wd name cookie => some ⟨wd, IN_MOVED_TO ||| IN_ISDIR, cookie, nameLen name, name⟩
  | _ => none

end Notice

structure Fs where
  dirs : List Dir
  nextIno : Nat
  marks : List Mark
  lastWd : Nat
  queue : List Notice
  cookie : BitVec 32

namespace Fs

def dirAt (fs : Fs) (path : CString) : Option Dir := fs.dirs.find? (·.path == path)

def markOf (fs : Fs) (ino : Nat) : Option Mark := fs.marks.find? (·.ino == ino)

/-- The names that a directory can have in its parent. -/
def ValidName (name : CString) : Prop :=
  name ≠ [] ∧ '/' ∉ name ∧ name.length ≤ NAME_MAX ∧ name ≠ ['.'] ∧ name ≠ ['.', '.']

instance (name : CString) : Decidable (ValidName name) :=
  inferInstanceAs (Decidable (_ ∧ _ ∧ _ ∧ _ ∧ _))

/-- No directory is below `path`. -/
def IsEmpty (fs : Fs) (path : CString) : Prop :=
  ∀ d ∈ fs.dirs, isUnder path d.path = true → d.path = path

instance (fs : Fs) (path : CString) : Decidable (fs.IsEmpty path) :=
  inferInstanceAs (Decidable (∀ d ∈ fs.dirs, _))

def mkdir (fs : Fs) (parent name : CString) : Option Fs :=
  (fs.dirAt parent).bind fun p =>
    if ValidName name ∧ fs.dirAt (parent ++ '/' :: name) = none then
      some { fs with
        dirs := fs.dirs ++ [⟨fs.nextIno, parent ++ '/' :: name⟩]
        nextIno := fs.nextIno + 1
        queue := fs.queue ++ ((fs.markOf p.ino).map fun m => .create m.wd name).toList }
    else none

/-- The end of an inode, and of its watch. -/
def evict (fs : Fs) (ino : Nat) : Fs := { fs with
  dirs := fs.dirs.filter (·.ino != ino)
  marks := fs.marks.filter (·.ino != ino)
  queue := fs.queue ++
    ((fs.markOf ino).map fun m => [.deleteSelf m.wd, .ignored m.wd]).getD [] }

def rmdir (fs : Fs) (path : CString) : Option Fs :=
  (fs.dirAt path).bind fun d => if fs.IsEmpty path then some (fs.evict d.ino) else none

/-- The events of a rename, by the watches of the two parents. -/
def moveNotices (name name' : CString) (cookie : BitVec 32) :
    Option Mark → Option Mark → List Notice
  | some m, some m' => [.renamed m.wd name m'.wd name' cookie]
  | some m, none => [.movedFrom m.wd name cookie]
  | none, some m' => [.movedTo m'.wd name' cookie]
  | none, none => []

def move (fs : Fs) (p p' : Dir) (name name' : CString) : Fs := { fs with
  dirs := fs.dirs.map (·.move (p.path ++ '/' :: name) (p'.path ++ '/' :: name'))
  queue := fs.queue ++ moveNotices name name' fs.cookie (fs.markOf p.ino) (fs.markOf p'.ino)
  cookie := fs.cookie + 1 }

/-- A rename of a directory to itself does nothing; an empty directory of the new name is replaced. -/
def rename (fs : Fs) (parent name parent' name' : CString) : Option Fs :=
  let old := parent ++ '/' :: name
  let new := parent' ++ '/' :: name'
  (fs.dirAt parent).bind fun p => (fs.dirAt parent').bind fun p' =>
    if ValidName name ∧ ValidName name' ∧ (fs.dirAt old).isSome then
      if old = new then some fs
      else if isUnder old new then none
      else
        match fs.dirAt new with
        | none => some (fs.move p p' name name')
        | some t => if fs.IsEmpty new then some ((fs.move p p' name name').evict t.ino) else none
    else none

end Fs

/-- The order in which `nftw` visits the directories of a tree. -/
structure Nftw where
  visit : List Dir → CString → List Dir
  mem_visit : ∀ dirs path d, d ∈ visit dirs path ↔ d ∈ dirs ∧ isUnder path d.path = true

/-- The system calls on the file system. -/
def fsKernel (N : Nftw) : Kernel Fs where
  inotifyInit fs := some (3, { fs with
    marks := []
    lastWd := 0
    queue := [] })
  close fs _ := { fs with
    marks := []
    queue := [] }
  addWatch fs _ path _ :=
    match fs.dirAt path with
    | none => (.error .enoent, fs)
    | some d =>
      match fs.markOf d.ino with
      | some m => (.ok m.wd, fs)
      | none => (.ok (fs.lastWd + 1), { fs with
          marks := fs.marks ++ [⟨fs.lastWd + 1, d.ino, by omega⟩]
          lastWd := fs.lastWd + 1 })
  rmWatch fs _ wd :=
    if fs.marks.any (·.wd == wd) then
      some { fs with
        marks := fs.marks.filter (·.wd != wd)
        queue := fs.queue ++ [.ignored wd] }
    else none
  nftw fs path := if (fs.dirAt path).isSome then (N.visit fs.dirs path).map (·.path, true) else []
  lstat fs path := (fs.dirAt path).map fun _ => true
  one_le_addWatch := by
    intro fs fd path flags wd fs' h
    split at h
    · cases h
    · split at h
      · next m _ =>
        cases h
        exact m.one_le
      · cases h
        omega

/-- The monitor deals with the first entry of the queue. `more` says whether the entry behind it is
in the same buffer; a retry keeps the entry, and a rebuild starts with a new queue. -/
def monitor (N : Nftw) (s : State Fs) (more firstTry : Bool) : Option (State Fs) :=
  match s.kernel.queue with
  | [] => none
  | n :: queue =>
    let nextEv := n.second.or (if more then queue.head?.map Notice.event else none)
    (processNextInotifyEvent (fsKernel N) s n.event nextEv firstTry).toOption.map fun (t, evLen) =>
      let drop := match Handing.ofResult n.event nextEv evLen with
        | .retry _ | .rebuilt _ => 0
        | .single _ => 1
        | .pair _ _ => if n.second.isSome then 1 else 2
      { t with kernel := { t.kernel with queue := t.kernel.queue.drop drop } }

inductive WorldStep
  | mkdir (parent name : CString)
  | rmdir (path : CString)
  | rename (parent name parent' name' : CString)
  | monitor (more firstTry : Bool)
  deriving DecidableEq, Repr

/-- Each operation on the file system is one step, and so is what the monitor does for one event: it
scans the file system as it is at that moment. -/
def world (N : Nftw) : Machine (State Fs) WorldStep where
  next s
    | .mkdir parent name => (s.kernel.mkdir parent name).map fun k => { s with kernel := k }
    | .rmdir path => (s.kernel.rmdir path).map fun k => { s with kernel := k }
    | .rename parent name parent' name' =>
      (s.kernel.rename parent name parent' name').map fun k => { s with kernel := k }
    | .monitor more firstTry => monitor N s more firstTry

/-! ### The purpose of the monitor -/

/-- The pathname is in a monitored tree whose root was not zapped. -/
def UnderRoot (s : State Fs) (path : CString) : Prop :=
  ∃ r, some r ∈ s.rootDirPaths ∧ isUnder r path = true

/-- The live entries of the cache are the directories of the trees that are still monitored, each
with its watch and its current pathname, and all of these are watched. -/
structure CacheTrue (s : State Fs) : Prop where
  watched : ∀ d ∈ s.kernel.dirs, UnderRoot s d.path → ∃ m ∈ s.kernel.marks, m.ino = d.ino
  live_iff : ∀ wd path, (wd ≠ -1 ∧ ⟨wd, path⟩ ∈ s.cache.wlCache) ↔
    ∃ d ∈ s.kernel.dirs, UnderRoot s d.path ∧ d.path = path ∧
      ∃ m ∈ s.kernel.marks, m.ino = d.ino ∧ m.wd = wd

end Tlpi.InotifyDtree
