import Mathlib.Data.List.DropRight
import Mathlib.Data.List.Pairwise
import Mathlib.Data.List.ReduceOption
import Tlpi.Inotify.DtreeInvariant
import Tlpi.Inotify.DtreeReplay

/-!
# The names of a directory

The program gets the pathname of a directory in two ways: `nftw` makes it from the argument on the
command line in a scan, and `processNextInotifyEvent` from the pathname in the cache and the name in
an event. Pathnames are compared as strings, so both ways must give the same string, and the one for
the root must be the argument.
-/

namespace Tlpi.InotifyDtree

/-! ### The arguments -/

/-- The fields of `struct stat` that the program reads; `isDir` is `S_ISDIR(st_mode)`. -/
structure Stat where
  st_dev : Nat
  st_ino : Nat
  isDir : Bool
  deriving DecidableEq, Repr

/-- The first loop of `copyRootDirPaths`. -/
def checkRootDirPaths (lstat : CString → Option Stat) : List CString → Except Stop Unit
  | [] => .ok ()
  | p :: argv =>
    match lstat p with
    | none => .error .exitFailure
    | some sb => if !sb.isDir then .error .exitFailure else checkRootDirPaths lstat argv

/-- The second loop, with the elements of `rootDirStat` that are filled. -/
def copyLoop (lstat : CString → Option Stat) :
    List CString → List Stat → Except Stop (List (Option CString))
  | [], _ => .ok []
  | p :: argv, rootDirStat =>
    match lstat p with
    | none => .error .exitFailure
    | some sb =>
      if rootDirStat.any fun sk => sb.st_ino == sk.st_ino && sb.st_dev == sk.st_dev then
        .error .exitFailure
      else (some p :: ·) <$> copyLoop lstat argv (rootDirStat ++ [sb])

/-- The result is `rootDirPaths`. The file system does not change between the calls of `lstat`. -/
def copyRootDirPaths (lstat : CString → Option Stat) (argv : List CString) :
    Except Stop (List (Option CString)) := do
  checkRootDirPaths lstat argv
  copyLoop lstat argv []

/-- What is known of `lstat`: it fails for the empty pathname and for those of `PATH_MAX` bytes or
more, and as long as it takes the longer pathname, a slash after the pathname of a directory makes
no difference. -/
structure LstatDirs (lstat : CString → Option Stat) : Prop where
  nil : lstat [] = none
  long : ∀ {p}, PATH_MAX ≤ p.length → lstat p = none
  slash : ∀ {p sb}, lstat p = some sb → sb.isDir = true → (p ++ ['/']).length < PATH_MAX →
    lstat (p ++ ['/']) = some sb

variable {lstat : CString → Option Stat} {argv : List CString} {paths : List (Option CString)}

theorem checkRootDirPaths_ok (h : checkRootDirPaths lstat argv = .ok ()) :
    ∀ p ∈ argv, ∃ sb, lstat p = some sb ∧ sb.isDir = true := by
  induction argv with
  | nil => exact nofun
  | cons q argv ih =>
    rw [checkRootDirPaths] at h
    cases hq : lstat q with
    | none => simp [hq] at h
    | some sb =>
      cases hdir : sb.isDir with
      | false => simp [hq, hdir] at h
      | true =>
        simp only [hq, hdir, Bool.not_true, Bool.false_eq_true, if_false] at h
        exact List.forall_mem_cons.mpr ⟨⟨sb, hq, hdir⟩, ih h⟩

/-- The arguments are copied, and no two of them are the same object. -/
theorem copyLoop_ok {rootDirStat : List Stat} (h : copyLoop lstat argv rootDirStat = .ok paths) :
    paths = argv.map some ∧ (∀ sb ∈ rootDirStat, ∀ p ∈ argv, lstat p ≠ some sb) ∧
      argv.Pairwise fun p q => lstat p ≠ lstat q := by
  induction argv generalizing rootDirStat paths with
  | nil =>
    cases h
    exact ⟨rfl, nofun, .nil⟩
  | cons p argv ih =>
    rw [copyLoop] at h
    cases hp : lstat p with
    | none => simp [hp] at h
    | some sb =>
      simp only [hp] at h
      split at h
      · cases h
      · next hany =>
        cases hloop : copyLoop lstat argv (rootDirStat ++ [sb]) with
        | error e => simp [hloop] at h
        | ok rest =>
          obtain ⟨rfl, hold, hpair⟩ := ih hloop
          rw [hloop] at h
          cases h
          refine ⟨rfl, fun sk hsk => List.forall_mem_cons.mpr ⟨fun heq => ?_, ?_⟩, ?_⟩
          · rw [hp, Option.some.injEq] at heq
            exact hany (List.any_eq_true.mpr ⟨sk, hsk, by simp [heq]⟩)
          · exact hold sk (List.mem_append_left _ hsk)
          · refine List.pairwise_cons.mpr ⟨fun q hq heq => ?_, hpair⟩
            exact hold sb (by simp) q hq (heq ▸ hp)

theorem copyRootDirPaths_ok (h : copyRootDirPaths lstat argv = .ok paths) :
    paths = argv.map some ∧ (∀ p ∈ argv, ∃ sb, lstat p = some sb ∧ sb.isDir = true) ∧
      argv.Pairwise fun p q => lstat p ≠ lstat q := by
  rw [copyRootDirPaths] at h
  cases hcheck : checkRootDirPaths lstat argv with
  | error e => simp [hcheck, bind, Except.bind] at h
  | ok _ =>
    rw [hcheck] at h
    obtain ⟨hpaths, -, hpair⟩ := copyLoop_ok h
    exact ⟨hpaths, checkRootDirPaths_ok hcheck, hpair⟩

/-! ### The pathnames -/

/-- The name of an entry of a directory. -/
structure Component (name : CString) : Prop where
  ne_nil : name ≠ []
  no_slash : '/' ∉ name
  length_le : name.length ≤ NAME_MAX

/-- `nftw` drops the slashes at the end of its argument, but keeps the first character. -/
def nftwRoot : CString → CString
  | [] => []
  | c :: path => c :: path.rdropWhile (· == '/')

/-- `nftw` puts one slash between the pathname of a directory and the name of an entry. -/
def nftwJoin (dir name : CString) : CString :=
  if dir.getLast? = some '/' then dir ++ name else dir ++ '/' :: name

/-- The pathname that a traversal of `path` has for the directory that `names` leads to. -/
def nftwPath (path : CString) (names : List CString) : CString :=
  names.foldl nftwJoin (nftwRoot path)

/-- The cache may have `p` as the pathname of the directory that `names` leads to from the root `r`:
the directory is found in a scan of the root, or in the scan for an event in a directory above it.
The kernel takes no pathname of `PATH_MAX` bytes. -/
inductive Recorded (r : CString) : List CString → CString → Prop
  | scan {names} : (∀ n ∈ names, Component n) → (nftwPath r names).length < PATH_MAX →
    Recorded r names (nftwPath r names)
  | event {names p name rest} : Recorded r names p → Component name → (∀ n ∈ rest, Component n) →
    (nftwPath (eventPath p name) rest).length < PATH_MAX →
    Recorded r (names ++ name :: rest) (nftwPath (eventPath p name) rest)

/-- Scans and events have the same names for the directories below `r`, and the scan's name for the
root is recognised, so that its moves are watched. -/
structure NamesAgree {κ : Type} (s : State κ) (r : CString) : Prop where
  event_eq_scan : ∀ {names p name}, Recorded r names p → Component name →
    (nftwPath r (names ++ [name])).length < PATH_MAX →
    eventPath p name = nftwPath r (names ++ [name])
  root : isRootDirPath s (nftwPath r []) = true
  moveSelf : watchFlags s (nftwPath r []) &&& IN_MOVE_SELF = IN_MOVE_SELF

/-- The part of a pathname below the root. -/
def slashed (names : List CString) : CString := names.flatMap ('/' :: ·)

variable {r p name path : CString} {names : List CString}

theorem Recorded.length_lt (h : Recorded r names p) : p.length < PATH_MAX := by
  cases h with
  | scan _ hlt => exact hlt
  | event _ _ _ hlt => exact hlt

theorem Component.getLast?_append (h : Component name) (p : CString) :
    (p ++ '/' :: name).getLast? ≠ some '/' := by
  intro hlast
  obtain ⟨c, hc⟩ := Option.ne_none_iff_exists'.mp (mt List.getLast?_eq_none_iff.mp h.ne_nil)
  have : (p ++ '/' :: name).getLast? = some c := by
    simp [List.getLast?_append, List.getLast?_cons, hc]
  obtain rfl : c = '/' := Option.some.inj (this.symm.trans hlast)
  exact h.no_slash (List.mem_of_getLast? hc)

theorem nftwRoot_eq_self_iff (hne : path ≠ []) :
    nftwRoot path = path ↔ path = ['/'] ∨ path.getLast? ≠ some '/' := by
  cases path with
  | nil => exact absurd rfl hne
  | cons c path =>
    rw [nftwRoot, List.cons.injEq, eq_self_iff_true, true_and, List.rdropWhile_eq_self_iff]
    cases path with
    | nil => by_cases hc : c = '/' <;> simp [hc]
    | cons d path => simp [List.getLast?_eq_some_getLast]

theorem nftwJoin_of_ne (h : path.getLast? ≠ some '/') : nftwJoin path name = path ++ '/' :: name :=
  if_neg h

/-- Below a directory that does not end in a slash, `nftw` puts a slash before each name. -/
theorem nftwPath_eq (hne : path ≠ []) (hlast : path.getLast? ≠ some '/')
    (hnames : ∀ n ∈ names, Component n) : nftwPath path names = path ++ slashed names := by
  rw [nftwPath, (nftwRoot_eq_self_iff hne).mpr (.inr hlast)]
  clear hne
  induction names generalizing path with
  | nil => simp [slashed]
  | cons n names ih =>
    obtain ⟨hn, hnames⟩ := List.forall_mem_cons.mp hnames
    rw [List.foldl_cons, nftwJoin_of_ne hlast, ih (hn.getLast?_append path) hnames]
    simp [slashed]

theorem Component.take (h : Component name) {n : Nat} (hn : 0 < n) : Component (name.take n) where
  ne_nil := by simp [h.ne_nil, Nat.pos_iff_ne_zero.mp hn]
  no_slash hmem := h.no_slash (List.mem_of_mem_take hmem)
  length_le := (List.length_take_le' n name).trans h.length_le

/-- An event's pathname that the kernel takes has not been cut off in the buffer: what is left of
the name would be too long. -/
theorem eventPath_eq_of_nftwPath_lt (hp : p.length < PATH_MAX) (hname : Component name)
    (hnames : ∀ n ∈ names, Component n)
    (hlt : (nftwPath (eventPath p name) names).length < PATH_MAX) :
    eventPath p name = p ++ '/' :: name := by
  have hcut : eventPath p name = p ++ '/' :: name.take (PATH_MAX + NAME_MAX - 2 - p.length) := by
    rw [eventPath, snprintf, List.take_append, List.take_of_length_le (by omega),
      show PATH_MAX + NAME_MAX - 1 - p.length = PATH_MAX + NAME_MAX - 2 - p.length + 1 by
        simp only [PATH_MAX, NAME_MAX] at hp ⊢; omega, List.take_succ_cons]
  have hroom : 0 < PATH_MAX + NAME_MAX - 2 - p.length := by
    simp only [PATH_MAX, NAME_MAX] at hp ⊢
    omega
  rw [hcut, nftwPath_eq (by simp) ((hname.take hroom).getLast?_append p) hnames] at hlt
  rw [hcut, List.take_of_length_le]
  simp only [List.length_append, List.length_cons, List.length_take, PATH_MAX, NAME_MAX] at hlt hp ⊢
  omega

/-- A root that does not end in a slash gives one name to each directory. -/
theorem Recorded.eq (h : Recorded r names p) (hne : r ≠ []) (hlast : r.getLast? ≠ some '/') :
    p = nftwPath r names ∧ ∀ n ∈ names, Component n := by
  induction h with
  | scan hnames _ => exact ⟨rfl, hnames⟩
  | @event names p name rest h hname hrest hlt ih =>
    obtain ⟨hp, hnames⟩ := ih
    have hall : ∀ n ∈ names ++ name :: rest, Component n :=
      List.forall_mem_append.mpr ⟨hnames, List.forall_mem_cons.mpr ⟨hname, hrest⟩⟩
    refine ⟨?_, hall⟩
    rw [eventPath_eq_of_nftwPath_lt h.length_lt hname hrest hlt,
      nftwPath_eq (by simp) (hname.getLast?_append p) hrest, nftwPath_eq hne hlast hall, hp,
      nftwPath_eq hne hlast hnames]
    simp [slashed]

/-! ### The root -/

variable {κ : Type} {s : State κ}

theorem isRootDirPath_iff : isRootDirPath s path = true ↔ some path ∈ s.rootDirPaths := by
  simp [isRootDirPath, findRootDirPath]

theorem watchFlags_and_moveSelf :
    watchFlags s path &&& IN_MOVE_SELF = IN_MOVE_SELF ↔ isRootDirPath s path = true := by
  rw [watchFlags]
  cases isRootDirPath s path <;> decide

/-- Slashes at the end of an argument do not change what it names. -/
theorem LstatDirs.append_slashes (h : LstatDirs lstat) {sb : Stat} (hp : lstat p = some sb)
    (hdir : sb.isDir = true) (n : Nat) (hlt : (p ++ List.replicate n '/').length < PATH_MAX) :
    lstat (p ++ List.replicate n '/') = some sb := by
  induction n with
  | zero => simpa using hp
  | succ n ih =>
    rw [List.replicate_succ', ← List.append_assoc] at hlt ⊢
    refine h.slash (ih ?_) hdir hlt
    rw [List.length_append] at hlt
    omega

theorem exists_eq_nftwRoot_append (path : CString) :
    ∃ n, path = nftwRoot path ++ List.replicate n '/' := by
  cases path with
  | nil => exact ⟨0, rfl⟩
  | cons c path =>
    refine ⟨(path.rtakeWhile (· == '/')).length, ?_⟩
    have htail : path.rtakeWhile (· == '/') =
        List.replicate (path.rtakeWhile (· == '/')).length '/' :=
      List.eq_replicate_of_mem fun c hc => by simpa using List.mem_rtakeWhile_imp hc
    rw [nftwRoot, List.cons_append, ← htail, List.rdropWhile_append_rtakeWhile]

/-- The argument without its slashes is not another argument. -/
theorem nftwRoot_mem_iff (hl : LstatDirs lstat) (hcopy : copyRootDirPaths lstat argv = .ok paths)
    (hr : r ∈ argv) : nftwRoot r ∈ argv ↔ nftwRoot r = r := by
  obtain ⟨-, hdirs, hpair⟩ := copyRootDirPaths_ok hcopy
  refine ⟨fun hmem => ?_, fun heq => heq.symm ▸ hr⟩
  obtain ⟨sb, hsb, hdir⟩ := hdirs _ hmem
  obtain ⟨n, hn⟩ := exists_eq_nftwRoot_append r
  have hlt : r.length < PATH_MAX := by
    obtain ⟨sb', hsb', -⟩ := hdirs r hr
    by_contra hlong
    rw [hl.long (Nat.le_of_not_lt hlong)] at hsb'
    cases hsb'
  have hsame : lstat r = some sb := by
    have := hl.append_slashes hsb hdir n
    rw [← hn] at this
    exact this hlt
  have hsymm : Std.Symm fun p q : CString => lstat p ≠ lstat q := ⟨fun _ _ h => h.symm⟩
  by_contra hne
  exact hpair.forall hmem hr hne (hsb.trans hsame.symm)

theorem NamesAgree.of_getLast? (hne : r ≠ []) (hlast : r.getLast? ≠ some '/')
    (hroot : some r ∈ s.rootDirPaths) : NamesAgree s r := by
  have hr : nftwPath r [] = r := (nftwRoot_eq_self_iff hne).mpr (.inr hlast)
  have hrec : isRootDirPath s (nftwPath r []) = true := isRootDirPath_iff.mpr (hr.symm ▸ hroot)
  refine ⟨fun {names p name} hp hname hlt => ?_, hrec, watchFlags_and_moveSelf.mpr hrec⟩
  obtain ⟨rfl, hnames⟩ := hp.eq hne hlast
  have hall : ∀ n ∈ names ++ [name], Component n :=
    List.forall_mem_append.mpr ⟨hnames, List.forall_mem_singleton.mpr hname⟩
  have hscan : nftwPath r (names ++ [name]) = nftwPath r names ++ '/' :: name := by
    rw [nftwPath_eq hne hlast hall, nftwPath_eq hne hlast hnames]
    simp [slashed]
  rw [hscan] at hlt ⊢
  exact eventPath_eq hlt

/-- A name in `/` gets two slashes from an event. -/
theorem not_namesAgree_slash : ¬NamesAgree s ['/'] := by
  intro h
  have hx : Component ['x'] := ⟨by simp, by simp, by decide⟩
  have hscan : Recorded ['/'] [] (nftwPath ['/'] []) := .scan nofun (by decide)
  exact absurd (h.event_eq_scan hscan hx (by decide)) (by decide)

/-- The two ways to name a directory agree for those arguments that do not end in a slash. -/
theorem namesAgree_iff (hl : LstatDirs lstat) (hcopy : copyRootDirPaths lstat argv = .ok paths)
    (hs : s.rootDirPaths = paths) (hr : r ∈ argv) : NamesAgree s r ↔ r.getLast? ≠ some '/' := by
  obtain ⟨rfl, hdirs, -⟩ := copyRootDirPaths_ok hcopy
  have hne : r ≠ [] := by
    rintro rfl
    obtain ⟨sb, hsb, -⟩ := hdirs _ hr
    simp [hl.nil] at hsb
  constructor
  · intro h hlast
    have hroot : nftwRoot r ∈ argv := by
      have := isRootDirPath_iff.mp h.root
      rw [hs] at this
      simpa [nftwPath] using this
    -- Of the arguments that end in a slash only `/` is recognised.
    obtain rfl : r = ['/'] :=
      ((nftwRoot_eq_self_iff hne).mp ((nftwRoot_mem_iff hl hcopy hr).mp hroot)).resolve_right
        (not_not.mpr hlast)
    exact not_namesAgree_slash h
  · intro hlast
    exact .of_getLast? hne hlast (by simpa [hs] using hr)

/-! ### The cache -/

/-- `nftw` names what it visits as `nftwPath` does. -/
def Kernel.NftwNames (K : Kernel κ) : Prop :=
  ∀ {k path p isDir}, (p, isDir) ∈ K.nftw k path →
    ∃ names, (∀ n ∈ names, Component n) ∧ p = nftwPath path names

/-- Every pathname in the cache is one of those of a directory below some root. -/
def AllRecorded (roots : List CString) (s : State κ) : Prop :=
  ∀ w ∈ s.cache.wlCache, 0 ≤ w.wd → ∃ r ∈ roots, ∃ names, Recorded r names w.path

variable {K : Kernel κ} {roots : List CString}

theorem mem_addWatchToCache {c : Cache} {wd : Int} {w : Watch} (hlt : path.length < PATH_MAX)
    (h : w ∈ (c.addWatchToCache wd path).wlCache) (hw : 0 ≤ w.wd) :
    w ∈ c.wlCache ∨ w.path = path := by
  rcases List.mem_or_eq_of_mem_set h with h | rfl
  · refine .inl ?_
    replace h : w ∈ c.findEmptyCacheSlot.2.wlCache := h
    rw [Cache.findEmptyCacheSlot] at h
    split at h
    · exact h
    · refine (List.mem_append.mp h).resolve_right fun h => ?_
      rw [List.eq_of_mem_replicate h] at hw
      exact absurd hw (by decide)
  · exact .inr (strncpy_of_le (Nat.le_of_lt hlt))

/-- A scan records pathnames that `nftw` makes. -/
theorem AllRecorded.watchSubtree (hK : K.NftwNames) (h : AllRecorded roots s)
    (hpath : ∀ names, (∀ n ∈ names, Component n) → (nftwPath path names).length < PATH_MAX →
      ∃ r ∈ roots, ∃ names', Recorded r names' (nftwPath path names)) :
    Post (fun _ => True) (fun t => AllRecorded roots t ∧ t.rootDirPaths = s.rootDirPaths)
      (watchSubtree K s path) := by
  refine Post.foldlM (P := fun t : State κ => AllRecorded roots t ∧
    t.rootDirPaths = s.rootDirPaths) ⟨h, rfl⟩ fun t p ht hp => ?_
  obtain ⟨names, hnames, hp⟩ := hK hp
  rw [traverseTree]
  refine Post.ite (fun _ => ht) fun _ => ?_
  split
  · exact Post.ite (fun _ => ht) fun _ => trivial
  · next hadd =>
    obtain ⟨-, -, hlt⟩ := inotifyAddWatch_ok hadd
    refine Post.ite (fun _ => ht) fun _ => ⟨fun w hw hwd => ?_, ht.2⟩
    rcases mem_addWatchToCache hlt hw hwd with hold | hnew
    · exact ht.1 w hold hwd
    · rw [hnew, hp]
      exact hpath names hnames (hp ▸ hlt)

theorem allRecorded_rebuilt (hK : K.NftwNames)
    (hroots : ∀ r, some r ∈ s.rootDirPaths → r ∈ roots) (oldInotifyFd : Int) :
    Post (fun _ => True) (fun t => AllRecorded roots t ∧ t.rootDirPaths = s.rootDirPaths) <|
      reinitialize K s oldInotifyFd := by
  unfold reinitialize
  generalize (if 0 ≤ oldInotifyFd then _ else _) = k
  dsimp only
  split
  · trivial
  · refine Post.foldlM (P := fun t : State κ => AllRecorded roots t ∧
      t.rootDirPaths = s.rootDirPaths) ⟨nofun, rfl⟩ fun t r ht hr => ?_
    refine (ht.1.watchSubtree hK fun names hnames hlt => ?_).mono (fun _ h => h) fun u hu =>
      ⟨hu.1, hu.2.trans ht.2⟩
    exact ⟨r, hroots r (List.reduceOption_mem_iff.mp hr), names, .scan hnames hlt⟩

/-- The event says that a directory has come to be in a directory that is watched. -/
structure Event.NewDir (ev : Event) : Prop where
  wd : 1 ≤ ev.wd
  not_ignored : ev.has IN_IGNORED = false
  isDir : ev.has IN_ISDIR = true
  created : ev.has (IN_CREATE ||| IN_MOVED_TO) = true
  component : Component ev.name

theorem AllRecorded.processNextInotifyEvent (hK : K.NftwNames) (h : AllRecorded roots s)
    (hwf : s.cache.WF) (hroots : ∀ r, some r ∈ s.rootDirPaths → r ∈ roots) {ev : Event}
    (hev : ev.NewDir) (nextEv : Option Event) (firstTry : Bool) :
    Post (fun _ => True) (fun t => AllRecorded roots t.1 ∧ t.1.rootDirPaths = s.rootDirPaths)
      (processNextInotifyEvent K s ev nextEv firstTry) := by
  obtain heq | heq | ⟨slot, heq, hslot⟩ :=
    processNextInotifyEvent_cases (K := K) s ev nextEv firstTry
  · rw [heq]
    exact Post.bind (allRecorded_rebuilt hK hroots _) fun t ht => ht
  · rw [heq]
    trivial
  · rw [heq]
    obtain ⟨j, rfl, hj⟩ := hslot.resolve_right fun hnone => by
      have := hev.wd
      rcases hnone.2 with h | h
      · omega
      · simp [hev.not_ignored] at h
    obtain ⟨w, hw, hwd⟩ := hwf.findWatch_some hj
    obtain ⟨r, hr, names, hp⟩ := h w (List.mem_of_getElem? hw) (by have := hev.wd; omega)
    have hscan : Post (fun _ => True)
        (fun t => AllRecorded roots t ∧ t.rootDirPaths = s.rootDirPaths)
        (InotifyDtree.watchSubtree K s (eventPath w.path ev.name)) :=
      h.watchSubtree hK fun rest hrest hlt => ⟨r, hr, _, .event hp hev.component hrest hlt⟩
    simp only [processEvent, hev.isDir, hev.created, Bool.and_self, if_true, slotPath, hw]
    refine Post.bind (Q := fun t => AllRecorded roots t ∧ t.rootDirPaths = s.rootDirPaths)
      (Post.ite (fun _ => ⟨h, rfl⟩) fun _ => hscan) fun t ht => ?_
    exact (finishEvent_spec _).mono (fun _ _ => trivial) fun u hu => by rwa [hu]

theorem AllRecorded.markCacheSlotEmpty (h : AllRecorded roots s) (slot : Nat) :
    AllRecorded roots { s with cache := s.cache.markCacheSlotEmpty slot } := by
  intro w hw hwd
  rcases List.mem_or_eq_of_mem_set hw with hw | rfl
  · exact h w hw hwd
  · exact absurd hwd (by decide)

theorem AllRecorded.zapSlots (h : AllRecorded roots s) (js : List Nat) (cnt : Int) :
    AllRecorded roots (zapSlots K path js cnt s).2 ∧
      (zapSlots K path js cnt s).2.rootDirPaths = s.rootDirPaths := by
  induction js generalizing cnt s with
  | nil => exact ⟨h, rfl⟩
  | cons j js ih =>
    rw [InotifyDtree.zapSlots]
    split
    · exact ih h cnt
    · split
      · split
        · exact ⟨h, rfl⟩
        · next k _ =>
          exact ih (s := { s with
            kernel := k
            cache := s.cache.markCacheSlotEmpty j }) (h.markCacheSlotEmpty j) (cnt + 1)
      · exact ih h cnt

/-- The steps that scan, and those that only take entries away. -/
def Call.Scans : Call κ → Prop
  | .build _ | .zapSubtree _ | .markCacheSlotEmpty _ | .kernel _ => True
  | .event ev _ _ => ev.NewDir
  | _ => False

/-- In every state that scans and events for new directories lead to, the pathnames in the cache are
those that `Recorded` describes. -/
theorem allRecorded_of_reachable (hK : K.NftwNames) {s₀ : State κ} (h0 : s₀.cache = .freeCache)
    (hroots : ∀ r, some r ∈ s₀.rootDirPaths → r ∈ roots)
    (h : (calls K).ReachableBy (fun _ a => a.Scans) s₀ s) : AllRecorded roots s := by
  suffices hinv : s.cache.WF ∧ AllRecorded roots s ∧ s.rootDirPaths = s₀.rootDirPaths from hinv.2.1
  refine h.invariant (P := fun s => s.cache.WF ∧ AllRecorded roots s ∧
    s.rootDirPaths = s₀.rootDirPaths) ?_ fun s a t ⟨hwf, hs, hsame⟩ ha hn => ?_
  · refine ⟨h0 ▸ Cache.wf_freeCache, fun w hw => ?_, rfl⟩
    simp [h0, Cache.freeCache] at hw
  · refine ⟨((execCall_steps s a).of_toOption hn).wf hwf, ?_⟩
    have hroots : ∀ r, some r ∈ s.rootDirPaths → r ∈ roots := hsame ▸ hroots
    have hstep : Post (fun _ => True)
        (fun t => AllRecorded roots t ∧ t.rootDirPaths = s.rootDirPaths) (execCall K s a) := by
      cases a with
      | build oldInotifyFd => exact allRecorded_rebuilt hK hroots oldInotifyFd
      | zapSubtree path => exact hs.zapSlots _ 0
      | markCacheSlotEmpty slot =>
        exact Post.ite (fun _ => ⟨hs.markCacheSlotEmpty slot, rfl⟩) fun _ => trivial
      | kernel k => exact ⟨hs, rfl⟩
      | event ev nextEv firstTry =>
        exact Post.map (hs.processNextInotifyEvent hK hwf hroots ha nextEv firstTry)
      | traverseTree | findEmptyCacheSlot | rewriteCachedPaths | command => exact ha.elim
    have ht := hstep.of_toOption hn
    exact ⟨ht.1, ht.2.trans hsame⟩

/-- The root directory, and `dir` in the current directory. -/
def twoDirsStat (p : CString) : Option Stat :=
  let p' := p.rdropWhile (· == '/')
  if p = [] ∨ PATH_MAX ≤ p.length then none
  else if p' = [] then some ⟨1, 2, true⟩
  else if p' = ['d', 'i', 'r'] ∨ p' = ['.', '/', 'd', 'i', 'r'] then some ⟨1, 7, true⟩
  else none

theorem lstatDirs_twoDirsStat : LstatDirs twoDirsStat where
  nil := rfl
  long h := if_pos (.inr h)
  slash {p sb} h _ hlt := by
    have hp : p ≠ [] := by
      rintro rfl
      cases h
    have hlt' : p.length + 1 < PATH_MAX := by simpa using hlt
    simpa [twoDirsStat, hp, hlt', Nat.not_le.mpr (Nat.lt_of_succ_lt hlt')] using h

/-- The program before its cache is built. -/
def started (rootDirPaths : List (Option CString)) : State Unit where
  cache := .freeCache
  rootDirPaths := rootDirPaths
  ignoreRootDirs := 0
  inotifyFd := -1
  abortOnCacheProblem := false
  checkCache := false
  kernel := ()
  halfZapped := false

theorem namesAgree_iff_dotDir : NamesAgree (started [some ['.', '/', 'd', 'i', 'r'], some ['/']])
      ['.', '/', 'd', 'i', 'r'] ∧
    eventPath (nftwPath ['.', '/', 'd', 'i', 'r'] [['a']]) ['b'] =
      ['.', '/', 'd', 'i', 'r', '/', 'a', '/', 'b'] := by
  have hcopy : copyRootDirPaths twoDirsStat [['.', '/', 'd', 'i', 'r'], ['/']] =
      .ok [some ['.', '/', 'd', 'i', 'r'], some ['/']] := by decide
  refine ⟨?_, by decide⟩
  exact (namesAgree_iff lstatDirs_twoDirsStat hcopy rfl (List.mem_cons_self ..)).mpr (by decide)

/-- The scan has `dir` for the argument `dir/`, which is then no root; and an event below the
argument `/` has a pathname with two slashes. -/
theorem names_differ :
    (copyRootDirPaths twoDirsStat [['d', 'i', 'r', '/']] = .ok [some ['d', 'i', 'r', '/']] ∧
      nftwPath ['d', 'i', 'r', '/'] [] = ['d', 'i', 'r'] ∧
      isRootDirPath (started [some ['d', 'i', 'r', '/']]) ['d', 'i', 'r'] = false ∧
      ¬NamesAgree (started [some ['d', 'i', 'r', '/']]) ['d', 'i', 'r', '/']) ∧
    copyRootDirPaths twoDirsStat [['/']] = .ok [some ['/']] ∧
      nftwPath ['/'] [['x']] = ['/', 'x'] ∧ eventPath (nftwPath ['/'] []) ['x'] = ['/', '/', 'x'] ∧
      ¬NamesAgree (started [some ['/']]) ['/'] := by
  refine ⟨⟨by decide, by decide, by decide, fun h => ?_⟩, by decide, by decide, by decide,
    not_namesAgree_slash⟩
  exact absurd h.root (by decide)

end Tlpi.InotifyDtree
