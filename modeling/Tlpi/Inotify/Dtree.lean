import Mathlib.Data.List.Basic
import Tlpi.Lib.Strtol

/-!
# The directory tree monitor (`inotify/inotify_dtree.c`)

The watch cache, the list of roots, and the functions that keep them up to date. A C string is
the list of its characters, without the terminating NUL. The system calls are a parameter: a
`Kernel` answers them from a state of its own, so it may be any file system that changes in any way
between two calls. Log messages and the counters that only they show are left out.
-/

namespace Tlpi.InotifyDtree

abbrev CString := List Char

def PATH_MAX : Nat := 4096

def NAME_MAX : Nat := 255

def IN_MOVED_FROM : BitVec 32 := 0x40
def IN_MOVED_TO : BitVec 32 := 0x80
def IN_CREATE : BitVec 32 := 0x100
def IN_DELETE_SELF : BitVec 32 := 0x400
def IN_MOVE_SELF : BitVec 32 := 0x800
def IN_UNMOUNT : BitVec 32 := 0x2000
def IN_Q_OVERFLOW : BitVec 32 := 0x4000
def IN_IGNORED : BitVec 32 := 0x8000
def IN_ONLYDIR : BitVec 32 := 0x1000000
def IN_ISDIR : BitVec 32 := 0x40000000

/-- `sizeof(struct inotify_event)`, without the name. -/
def eventHeaderSize : Nat := 16

def INOTIFY_READ_BUF_LEN : Nat := 100 * (eventHeaderSize + NAME_MAX + 1)

/-- `snprintf` into an array of `size` bytes. -/
def snprintf (size : Nat) (text : CString) : CString := text.take (size - 1)

/-- `strncpy` of at most `size` bytes. -/
def strncpy (size : Nat) (text : CString) : CString := text.take size

/-- The ways in which the program ends; `fault` is an access outside `wlCache`. -/
inductive Stop
  | exitSuccess
  | exitFailure
  | abort
  | fault
  deriving DecidableEq, Repr

/-! ### The watch list cache -/

structure Watch where
  wd : Int
  path : CString
  deriving DecidableEq, Repr

/-- An unused slot. -/
def Watch.empty : Watch := ⟨-1, []⟩

structure Cache where
  wlCache : List Watch
  cacheSize : Nat
  deriving DecidableEq, Repr

namespace Cache

def freeCache : Cache := ⟨[], 0⟩

/-- The slots that the loops up to `cacheSize` go through. -/
def slots (c : Cache) : List Watch := c.wlCache.take c.cacheSize

def findWatch (c : Cache) (wd : Int) : Option Nat := c.slots.findIdx? (·.wd == wd)

def markCacheSlotEmpty (c : Cache) (slot : Nat) : Cache :=
  { c with wlCache := c.wlCache.set slot .empty }

def ALLOC_INCR : Nat := 200

/-- The slot found, and the cache, which has grown if no slot was free. -/
def findEmptyCacheSlot (c : Cache) : Nat × Cache :=
  match c.findWatch (-1) with
  | some j => (j, c)
  | none =>
    (c.cacheSize, {
      wlCache := c.wlCache ++ List.replicate ALLOC_INCR .empty
      cacheSize := c.cacheSize + ALLOC_INCR })

def addWatchToCache (c : Cache) (wd : Int) (pathname : CString) : Cache :=
  let (slot, c) := c.findEmptyCacheSlot
  { c with wlCache := c.wlCache.set slot ⟨wd, strncpy PATH_MAX pathname⟩ }

def pathnameToCacheSlot (c : Cache) (pathname : CString) : Option Nat :=
  c.slots.findIdx? fun w => decide (0 ≤ w.wd) && w.path == pathname

def pathnameInCache (c : Cache) (pathname : CString) : Bool :=
  (c.pathnameToCacheSlot pathname).isSome

end Cache

/-- The comparison of both loops over subtrees: `path` starts with the whole of `pn`, and `pn` is
followed by `/` or by the end of `path`. -/
def isUnder (pn path : CString) : Bool :=
  pn.isPrefixOf path && ((path.drop pn.length).head?.all (· == '/'))

/-- The body of the loop of `rewriteCachedPaths`. -/
def Watch.rewrite (fullPath newPrefix : CString) (w : Watch) : Watch :=
  if isUnder fullPath w.path then
    let newPath := snprintf PATH_MAX (newPrefix ++ w.path.drop fullPath.length)
    { w with path := strncpy PATH_MAX newPath }
  else w

def Cache.rewriteCachedPaths (c : Cache) (oldPathPrefix oldName newPathPrefix newName : CString) :
    Cache :=
  let fullPath := snprintf PATH_MAX (oldPathPrefix ++ '/' :: oldName)
  let newPrefix := snprintf PATH_MAX (newPathPrefix ++ '/' :: newName)
  { c with wlCache := c.slots.map (·.rewrite fullPath newPrefix) ++ c.wlCache.drop c.cacheSize }

/-! ### The system calls -/

inductive Errno
  | enoent
  | enametoolong
  | other
  deriving DecidableEq, Repr

/-- The system calls. `nftw` lists the pathnames that a traversal visits, with whether each is a
directory; `lstat` says whether a pathname exists and is a directory; `rmWatch` returns `none` when
it fails. Watch descriptors are positive. -/
structure Kernel (κ : Type) where
  inotifyInit : κ → Option (Int × κ)
  close : κ → Int → κ
  addWatch : κ → Int → CString → BitVec 32 → Except Errno Int × κ
  rmWatch : κ → Int → Int → Option κ
  nftw : κ → CString → List (CString × Bool)
  lstat : κ → CString → Option Bool
  one_le_addWatch : ∀ {k fd path flags wd k'}, addWatch k fd path flags = (.ok wd, k') → 1 ≤ wd

/-- `inotify_add_watch`: the kernel resolves neither an empty pathname nor one of `PATH_MAX` or
more bytes. -/
def Kernel.inotifyAddWatch {κ : Type} (K : Kernel κ) (k : κ) (fd : Int) (path : CString)
    (flags : BitVec 32) : Except Errno Int × κ :=
  if path = [] then (.error .enoent, k)
  else if PATH_MAX ≤ path.length then (.error .enametoolong, k)
  else K.addWatch k fd path flags

/-! ### The program -/

/-- The variables of the program, and the state of the kernel. `numRootDirs` is the length of
`rootDirPaths`. `halfZapped` is not a variable of the program: it notes that a zap has failed since
the cache was last built. -/
structure State (κ : Type) where
  cache : Cache
  rootDirPaths : List (Option CString)
  ignoreRootDirs : Nat
  inotifyFd : Int
  abortOnCacheProblem : Bool
  checkCache : Bool
  kernel : κ
  halfZapped : Bool

variable {κ : Type}

def checkCacheConsistency (K : Kernel κ) (s : State κ) : Except Stop Unit :=
  if s.cache.slots.any fun w => decide (0 ≤ w.wd) && K.lstat s.kernel w.path == some false then
    .error .exitFailure
  else .ok ()

def findWatchChecked (s : State κ) (wd : Int) : Except Stop (Option Nat) :=
  match s.cache.findWatch wd with
  | some slot => .ok (some slot)
  | none => if s.abortOnCacheProblem then .error .abort else .ok none

def findRootDirPath (s : State κ) (path : CString) : Option Nat :=
  s.rootDirPaths.findIdx? (· == some path)

def isRootDirPath (s : State κ) (path : CString) : Bool := (findRootDirPath s path).isSome

def zapRootDirPath (s : State κ) (path : CString) : Except Stop (State κ) :=
  match findRootDirPath s path with
  | none => .error .exitFailure
  | some p =>
    if s.ignoreRootDirs + 1 = s.rootDirPaths.length then .error .exitSuccess
    else .ok { s with
      rootDirPaths := s.rootDirPaths.set p none
      ignoreRootDirs := s.ignoreRootDirs + 1 }

/-- The `flags` of `traverseTree`. -/
def watchFlags (s : State κ) (pathname : CString) : BitVec 32 :=
  let flags := IN_CREATE ||| IN_MOVED_FROM ||| IN_MOVED_TO ||| IN_DELETE_SELF
  if isRootDirPath s pathname then flags ||| IN_MOVE_SELF else flags

def traverseTree (K : Kernel κ) (s : State κ) (pathname : CString) (isDir : Bool) :
    Except Stop (State κ) :=
  if !isDir then .ok s
  else
    match K.inotifyAddWatch s.kernel s.inotifyFd pathname (watchFlags s pathname ||| IN_ONLYDIR) with
    | (.error e, k) => if e = .enoent then .ok { s with kernel := k } else .error .exitFailure
    | (.ok wd, k) =>
      if (s.cache.findWatch wd).isSome then .ok { s with kernel := k }
      else .ok { s with
        kernel := k
        cache := s.cache.addWatchToCache wd pathname }

/-- `watchDir` and `watchSubtree`, which logs what `watchDir` returns. -/
def watchSubtree (K : Kernel κ) (s : State κ) (path : CString) : Except Stop (State κ) :=
  (K.nftw s.kernel path).foldlM (fun s p => traverseTree K s p.1 p.2) s

/-- The loop of `zapSubtree` over the slots `js`. -/
def zapSlots (K : Kernel κ) (pn : CString) : List Nat → Int → State κ → Int × State κ
  | [], cnt, s => (cnt, s)
  | j :: js, cnt, s =>
    match s.cache.wlCache[j]? with
    | none => zapSlots K pn js cnt s
    | some w =>
      if 0 ≤ w.wd ∧ isUnder pn w.path then
        match K.rmWatch s.kernel s.inotifyFd w.wd with
        | none => (-1, { s with halfZapped := true })
        | some k =>
          zapSlots K pn js (cnt + 1) { s with
            kernel := k
            cache := s.cache.markCacheSlotEmpty j }
      else zapSlots K pn js cnt s

def zapSubtree (K : Kernel κ) (s : State κ) (path : CString) : Int × State κ :=
  zapSlots K path (List.range s.cache.cacheSize) 0 s

def reinitialize (K : Kernel κ) (s : State κ) (oldInotifyFd : Int) : Except Stop (State κ) :=
  let k := if 0 ≤ oldInotifyFd then K.close s.kernel oldInotifyFd else s.kernel
  match K.inotifyInit k with
  | none => .error .exitFailure
  | some (inotifyFd, k) =>
    (s.rootDirPaths.reduceOption).foldlM (watchSubtree K) { s with
      kernel := k
      inotifyFd
      cache := .freeCache
      halfZapped := false }

/-! ### Events -/

structure Event where
  wd : Int
  mask : BitVec 32
  cookie : BitVec 32
  len : Nat
  name : CString
  deriving DecidableEq, Repr

namespace Event

/-- The test `ev->mask & bits`. -/
def has (ev : Event) (bits : BitVec 32) : Bool := ev.mask &&& bits != 0

def size (ev : Event) : Nat := eventHeaderSize + ev.len

/-- The test for an `IN_MOVED_FROM` of a directory. -/
def movedFromDir (ev : Event) : Bool :=
  ev.mask &&& (IN_MOVED_FROM ||| IN_ISDIR) == IN_MOVED_FROM ||| IN_ISDIR

end Event

/-- `wlCache[evCacheSlot].path`; `evCacheSlot` is `none` while the variable is not set. -/
def slotPath (s : State κ) (evCacheSlot : Option Nat) : Except Stop CString :=
  match evCacheSlot with
  | none => .error .fault
  | some j =>
    match s.cache.wlCache[j]? with
    | none => .error .fault
    | some w => .ok w.path

/-- `markCacheSlotEmpty(evCacheSlot)`. -/
def clearSlot (s : State κ) (evCacheSlot : Option Nat) : Except Stop (State κ) :=
  match evCacheSlot with
  | none => .error .fault
  | some j =>
    if j < s.cache.wlCache.length then .ok { s with cache := s.cache.markCacheSlotEmpty j }
    else .error .fault

/-- The cache is rebuilt and the rest of the buffer discarded. -/
def rebuild (K : Kernel κ) (s : State κ) : Except Stop (State κ × Int) := do
  let s ← reinitialize K s s.inotifyFd
  return (s, INOTIFY_READ_BUF_LEN)

/-- The end of `processNextInotifyEvent`. -/
def finishEvent (K : Kernel κ) (s : State κ) (evLen : Nat) : Except Stop (State κ × Int) := do
  if s.checkCache then checkCacheConsistency K s
  return (s, evLen)

/-- The branches for an `IN_MOVED_FROM` of a directory. -/
def processMovedFrom (K : Kernel κ) (s : State κ) (evCacheSlot : Option Nat) (ev : Event)
    (nextEv : Option Event) (firstTry : Bool) : Except Stop (State κ × Int) :=
  match nextEv.filter fun nextEv => nextEv.has IN_MOVED_TO && nextEv.cookie == ev.cookie with
  | some nextEv => do
    match ← findWatchChecked s nextEv.wd with
    | none => rebuild K s
    | some nextEvCacheSlot =>
      let oldPathPrefix ← slotPath s evCacheSlot
      let newPathPrefix ← slotPath s (some nextEvCacheSlot)
      finishEvent K { s with
        cache := s.cache.rewriteCachedPaths oldPathPrefix ev.name newPathPrefix nextEv.name }
        (ev.size + nextEv.size)
  | none =>
    if nextEv.isSome || !firstTry then do
      let path ← slotPath s evCacheSlot
      let (cnt, s) := zapSubtree K s (snprintf (PATH_MAX + NAME_MAX) (path ++ '/' :: ev.name))
      if cnt = -1 then rebuild K s else finishEvent K s ev.size
    else .ok (s, -1)

/-- The chain of branches on the mask. -/
def processEvent (K : Kernel κ) (s : State κ) (evCacheSlot : Option Nat) (ev : Event)
    (nextEv : Option Event) (firstTry : Bool) : Except Stop (State κ × Int) := do
  if ev.has IN_ISDIR && ev.has (IN_CREATE ||| IN_MOVED_TO) then
    let path ← slotPath s evCacheSlot
    let fullPath := snprintf (PATH_MAX + NAME_MAX) (path ++ '/' :: ev.name)
    let s ← (if s.cache.pathnameInCache fullPath then .ok s else watchSubtree K s fullPath :
      Except Stop (State κ))
    finishEvent K s ev.size
  else if ev.has IN_DELETE_SELF then
    let path ← slotPath s evCacheSlot
    let s ← (if isRootDirPath s path then zapRootDirPath s path else .ok s : Except Stop (State κ))
    let s ← clearSlot s evCacheSlot
    finishEvent K s ev.size
  else if ev.movedFromDir then
    processMovedFrom K s evCacheSlot ev nextEv firstTry
  else if ev.has IN_Q_OVERFLOW then
    let s ← reinitialize K s s.inotifyFd
    finishEvent K s INOTIFY_READ_BUF_LEN
  else if ev.has IN_UNMOUNT then
    let s ← clearSlot s evCacheSlot
    finishEvent K s ev.size
  else if ev.has IN_MOVE_SELF then
    let path ← slotPath s evCacheSlot
    if isRootDirPath s path then
      let s ← zapRootDirPath s path
      let (cnt, s) := zapSubtree K s path
      if cnt = -1 then rebuild K s else finishEvent K s ev.size
    else finishEvent K s ev.size
  else finishEvent K s ev.size

/-- `nextEv` is the event behind `ev` in the buffer, if there is one. The result is the number of
bytes consumed, or -1 to ask for another `read`. -/
def processNextInotifyEvent (K : Kernel κ) (s : State κ) (ev : Event) (nextEv : Option Event)
    (firstTry : Bool) : Except Stop (State κ × Int) := do
  if ev.wd ≠ -1 ∧ ev.has IN_IGNORED = false then
    match ← findWatchChecked s ev.wd with
    | none => rebuild K s
    | some evCacheSlot => processEvent K s (some evCacheSlot) ev nextEv firstTry
  else processEvent K s none ev nextEv firstTry

/-! ### Commands -/

/-- The word that `%s` stores into `arg`, whose contents stay `arg₀` if there is none. -/
def scanArg (line arg₀ : CString) : CString :=
  let word := ((line.drop 1).dropWhile Num.isspace).takeWhile (!Num.isspace ·)
  if word = [] then arg₀ else word

/-- `input` is what `read` stores into `line`, empty at end of file; `arg₀` is what `arg` holds
before. -/
def executeCommand (K : Kernel κ) (s : State κ) (input arg₀ : CString) : Except Stop (State κ) :=
  if input = [] then .error .exitFailure
  else
    let line := input.dropLast
    let arg := scanArg line arg₀
    match line.head? with
    | none => .ok s
    | some 'a' => watchSubtree K (zapSubtree K s arg).2 arg
    | some 'c' | some 'C' => do
      checkCacheConsistency K s
      return s
    | some 'q' => .error .exitSuccess
    | some 'x' => .ok { s with checkCache := !s.checkCache }
    | some 'z' => .ok (zapSubtree K s arg).2
    | some '0' => reinitialize K { s with kernel := K.close s.kernel s.inotifyFd } (-1)
    | some _ => .ok s

end Tlpi.InotifyDtree
