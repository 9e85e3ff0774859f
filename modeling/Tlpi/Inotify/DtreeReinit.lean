import Mathlib.Data.List.ReduceOption
import Mathlib.Logic.Relation
import Tlpi.Lib.Post
import Tlpi.Inotify.DtreeView

/-!
# Rebuilding the cache

`reinitialize` on a file system that does not change meanwhile. What the program relies on is stated
of the kernel (`StillFs`): a watch descriptor belongs to one directory, and a traversal of a root
comes to every directory of its tree. The trees of the roots may overlap. The kernel may refuse a
call, and then the program ends.
-/

namespace Tlpi.InotifyDtree

variable {κ : Type} {K : Kernel κ} {ι : Type}

/-- A file system with directories `ι` that does not change, as the system calls show it for the
pathnames `roots`. -/
structure StillFs (K : Kernel κ) (ι : Type) (roots : List CString) where
  /-- The directory that a pathname names. -/
  resolve : CString → Option ι
  /-- The second directory is in the first one. -/
  Sub : ι → ι → Prop
  /-- The states of the kernel that have this file system. -/
  Still : κ → Prop
  /-- The watch descriptor of a directory in an inotify instance. -/
  wdOf : κ → Int → ι → Option Int
  resolve_nil : resolve [] = none
  close : ∀ {k} fd, Still k → Still (K.close k fd)
  inotifyInit : ∀ {k fd k'}, Still k → K.inotifyInit k = some (fd, k') →
    Still k' ∧ ∀ d, wdOf k' fd d = none
  /-- A directory that is there is not reported missing. -/
  addWatch_ne_enoent : ∀ {k fd p flags d e k'}, Still k → resolve p = some d →
    K.addWatch k fd p flags = (.error e, k') → e ≠ .enoent
  /-- There is one watch descriptor for each directory, and it is the same the next time. -/
  addWatch : ∀ {k fd p flags d wd k'}, Still k → resolve p = some d →
    K.addWatch k fd p flags = (.ok wd, k') → Still k' ∧ wdOf k' fd d = some wd ∧
    (∀ e, e ≠ d → wdOf k' fd e = wdOf k fd e) ∧ (∀ e, wdOf k fd e = some wd → e = d) ∧
    ∀ w, wdOf k fd d = some w → w = wd
  /-- A traversal comes to the directories at and below the one that `r` names. -/
  nftw : ∀ {k}, Still k → ∀ r ∈ roots,
    (∀ p, (p, true) ∈ K.nftw k r →
      ∃ i d, resolve r = some i ∧ Relation.ReflTransGen Sub i d ∧ resolve p = some d) ∧
    ∀ i d, resolve r = some i → Relation.ReflTransGen Sub i d →
      ∃ p, (p, true) ∈ K.nftw k r ∧ resolve p = some d

/-- The kernel after the old instance is closed. -/
def State.closed (K : Kernel κ) (s : State κ) (oldInotifyFd : Int) : κ :=
  if 0 ≤ oldInotifyFd then K.close s.kernel oldInotifyFd else s.kernel

/-- The slot `j` is in use, for the watch `w`. -/
def Cache.Live (c : Cache) (j : Nat) (w : Watch) : Prop := c.slots[j]? = some w ∧ 0 ≤ w.wd

namespace StillFs

variable {roots : List CString} (F : StillFs K ι roots)

/-- `d` is in the tree under the directory that `r` names. -/
def InTree (r : CString) (d : ι) : Prop :=
  ∃ i, F.resolve r = some i ∧ Relation.ReflTransGen F.Sub i d

/-- `d` is in the tree under one of the roots. -/
def InTrees (d : ι) : Prop := ∃ r ∈ roots, F.InTree r d

/-- A traversal of a root comes to the directory `p`. -/
def Visited (p : CString) : Prop := ∃ k, F.Still k ∧ ∃ r ∈ roots, (p, true) ∈ K.nftw k r

/-- From the kernel `k₀` on, no call of `reinitialize` is refused: not the one for a new instance,
nor, with the descriptor of that, one for a directory that a traversal comes to. -/
structure Granted (k₀ : κ) : Prop where
  inotifyInit : K.inotifyInit k₀ ≠ none
  addWatch : ∀ (s : State κ) k p e k', K.inotifyInit k₀ = some (s.inotifyFd, k) →
    F.Still s.kernel → F.Visited p →
    K.addWatch s.kernel s.inotifyFd p (watchFlags s p ||| IN_ONLYDIR) ≠ (.error e, k')
  short : ∀ p, F.Visited p → p.length < PATH_MAX

/-- The cache knows the watches of the directories of `S` in the instance that was made from the
kernel `k₀`, and there are no others. -/
structure Scanned (k₀ : κ) (S : ι → Prop) (s : State κ) : Prop where
  made : ∃ k, K.inotifyInit k₀ = some (s.inotifyFd, k)
  still : F.Still s.kernel
  wf : s.cache.WF
  known : ∀ d w, F.wdOf s.kernel s.inotifyFd d = some w →
    S d ∧ ∃ p, s.cache.look w = some p ∧ F.resolve p = some d
  covers : ∀ d, S d → ∃ w, F.wdOf s.kernel s.inotifyFd d = some w
  live : ∀ w p, s.cache.look w = some p → ∃ d, F.wdOf s.kernel s.inotifyFd d = some w

/-- How `reinitialize` ends when it does not return. -/
abbrev Refused (k₀ : κ) (e : Stop) : Prop := e = .exitFailure ∧ ¬F.Granted k₀

variable {F} {k₀ : κ} {S : ι → Prop} {s : State κ}

theorem Scanned.congr {S' : ι → Prop} (h : F.Scanned k₀ S s) (hS : ∀ d, S d ↔ S' d) :
    F.Scanned k₀ S' s := by
  obtain rfl : S = S' := funext fun d => propext (hS d)
  exact h

/-- A descriptor that is not in the cache belongs to a directory that was not visited before. -/
theorem Scanned.add (h : F.Scanned k₀ S s) {p : CString} {d : ι} {wd : Int}
    {flags : BitVec 32} {k : κ} (hp : F.resolve p = some d) (hlt : p.length < PATH_MAX)
    (hadd : K.addWatch s.kernel s.inotifyFd p flags = (.ok wd, k))
    (hnew : s.cache.findWatch wd = none) :
    F.Scanned k₀ (fun e => S e ∨ e = d) { s with
      kernel := k
      cache := s.cache.addWatchToCache wd p } := by
  obtain ⟨hk, hd, hother, hfresh, hsame⟩ := F.addWatch h.still hp hadd
  have hwd := K.one_le_addWatch hadd
  have hne : p ≠ [] := fun hnil => by simp [hnil, F.resolve_nil] at hp
  have hlook := h.wf.look_addWatchToCache hwd hne hlt hnew
  refine ⟨h.made, hk, h.wf.addWatchToCache hwd hne hnew, fun e w he => ?_, fun e he => ?_,
    fun w q hw => ?_⟩
  · by_cases hed : e = d
    · subst hed
      obtain rfl : wd = w := Option.some.inj (hd.symm.trans he)
      exact ⟨.inr rfl, p, by simp [hlook], hp⟩
    · have hold : F.wdOf s.kernel s.inotifyFd e = some w := (hother e hed).symm.trans he
      obtain ⟨hS, q, hq, hres⟩ := h.known e w hold
      have hw : w ≠ wd := fun hw => hed (hfresh e (hold.trans (congrArg some hw)))
      exact ⟨.inl hS, q, by simpa [hlook, hw] using hq, hres⟩
  · by_cases hed : e = d
    · exact ⟨wd, hed ▸ hd⟩
    · obtain ⟨w, hw⟩ := h.covers e (he.resolve_right hed)
      exact ⟨w, (hother e hed).trans hw⟩
  · simp only [hlook, Function.update_apply] at hw
    split at hw
    · next heq => exact ⟨d, heq ▸ hd⟩
    · next hw' =>
      obtain ⟨e, he⟩ := h.live w q hw
      have hed : e ≠ d := fun hed => hw' (hsame w (hed ▸ he))
      exact ⟨e, (hother e hed).trans he⟩

/-- A descriptor that is in the cache belongs to a directory that was visited before. -/
theorem Scanned.again (h : F.Scanned k₀ S s) {p : CString} {d : ι} {wd : Int}
    {flags : BitVec 32} {k : κ} (hp : F.resolve p = some d)
    (hadd : K.addWatch s.kernel s.inotifyFd p flags = (.ok wd, k))
    (hold : s.cache.findWatch wd ≠ none) :
    F.Scanned k₀ (fun e => S e ∨ e = d) { s with kernel := k } := by
  obtain ⟨hk, hd, hother, hfresh, -⟩ := F.addWatch h.still hp hadd
  have hwd := K.one_le_addWatch hadd
  obtain ⟨q, hq⟩ := Option.ne_none_iff_exists'.mp
    (mt (h.wf.findWatch_eq_none (show wd ≠ -1 by omega)).mpr hold)
  obtain ⟨e, he⟩ := h.live wd q hq
  obtain rfl := hfresh e he
  have hwdOf : F.wdOf k s.inotifyFd = F.wdOf s.kernel s.inotifyFd := by
    funext e'
    by_cases hed : e' = e
    · rw [hed, hd, he]
    · exact hother e' hed
  have hS : S e := (h.known e wd he).1
  refine Scanned.congr (S := S) ⟨h.made, hk, h.wf, ?_, ?_, ?_⟩ fun e' => ?_
  · simpa only [hwdOf] using h.known
  · simpa only [hwdOf] using h.covers
  · simpa only [hwdOf] using h.live
  · exact ⟨.inl, fun h => h.elim id (· ▸ hS)⟩

theorem Scanned.traverseTree (h : F.Scanned k₀ S s) {p : CString} {d : ι}
    (hp : F.resolve p = some d) (hvisited : F.Visited p) :
    Post (F.Refused k₀) (F.Scanned k₀ fun e => S e ∨ e = d) (traverseTree K s p true) := by
  have hne : p ≠ [] := fun hnil => by simp [hnil, F.resolve_nil] at hp
  simp only [InotifyDtree.traverseTree, Kernel.inotifyAddWatch, if_neg hne, Bool.not_true,
    Bool.false_eq_true, if_false]
  by_cases hlt : PATH_MAX ≤ p.length
  · rw [if_pos hlt]
    exact ⟨rfl, fun hg => absurd (hg.short p hvisited) (Nat.not_lt.mpr hlt)⟩
  · rw [if_neg hlt]
    rcases hadd : K.addWatch s.kernel s.inotifyFd p (watchFlags s p ||| IN_ONLYDIR) with ⟨e | wd, k⟩
    · refine Post.ite (fun he => absurd he (F.addWatch_ne_enoent h.still hp hadd)) fun _ => ?_
      obtain ⟨k', hmade⟩ := h.made
      exact ⟨rfl, fun hg => hg.addWatch s k' p e k hmade h.still hvisited hadd⟩
    · refine Post.ite (fun hold => ?_) fun hnew => ?_
      · exact h.again hp hadd fun hnone => by simp [hnone] at hold
      · exact h.add hp (Nat.not_le.mp hlt) hadd (by simpa using hnew)

/-- What a traversal of the tree under `r` adds. -/
theorem Scanned.watchSubtree (h : F.Scanned k₀ S s) {r : CString}
    (hr : r ∈ roots) :
    Post (F.Refused k₀) (F.Scanned k₀ fun d => S d ∨ F.InTree r d) (watchSubtree K s r) := by
  obtain ⟨hsound, hcomplete⟩ := F.nftw h.still r hr
  have hloop : Post (F.Refused k₀)
      (F.Scanned k₀ fun d => S d ∨ ∃ p, (p, true) ∈ K.nftw s.kernel r ∧ F.resolve p = some d)
      (InotifyDtree.watchSubtree K s r) := by
    refine Post.foldlM_prefix
      (P := fun done t =>
        F.Scanned k₀ (fun d => S d ∨ ∃ p, (p, true) ∈ done ∧ F.resolve p = some d) t)
      (h.congr fun d => by simp) fun done b t ht hb => ?_
    obtain ⟨p, isDir⟩ := b
    cases isDir with
    | false => exact ht.congr fun d => by simp
    | true =>
      obtain ⟨-, d, -, -, hp⟩ := hsound p hb
      refine (ht.traverseTree hp ⟨_, h.still, r, hr, hb⟩).mono (fun _ he => he)
        fun u hu => hu.congr fun e => ?_
      simp only [List.mem_append, List.mem_singleton, Prod.mk.injEq, and_true, or_and_right,
        exists_or, exists_eq_left, hp, Option.some.injEq, or_assoc, @eq_comm _ e d]
  refine hloop.mono (fun _ he => he) fun t ht => ht.congr fun d => or_congr_right ⟨?_, ?_⟩
  · rintro ⟨p, hmem, hp⟩
    obtain ⟨i, d', hi, hd', hp'⟩ := hsound p hmem
    obtain rfl : d' = d := Option.some.inj (hp'.symm.trans hp)
    exact ⟨i, hi, hd'⟩
  · rintro ⟨i, hi, hd⟩
    exact hcomplete i d hi hd

theorem reinitialize_scanned (hroots : s.rootDirPaths.reduceOption = roots) (oldInotifyFd : Int)
    (hstill : F.Still s.kernel) :
    Post (F.Refused (s.closed K oldInotifyFd)) (F.Scanned (s.closed K oldInotifyFd) F.InTrees) <|
      reinitialize K s oldInotifyFd := by
  have hk : F.Still (s.closed K oldInotifyFd) := by
    unfold State.closed
    split
    · exact F.close _ hstill
    · exact hstill
  unfold reinitialize
  rw [← State.closed, hroots]
  generalize s.closed K oldInotifyFd = k₀ at hk
  dsimp only
  split
  · next hinit => exact ⟨rfl, fun hg => hg.inotifyInit hinit⟩
  · next fd k' hinit =>
    obtain ⟨hk', hnone⟩ := F.inotifyInit hk hinit
    refine (Post.foldlM_prefix
      (P := fun done t => F.Scanned k₀ (fun d => ∃ r ∈ done, F.InTree r d) t) ?_ ?_).mono
      (fun _ he => he) fun t ht => ht
    · refine ⟨⟨k', hinit⟩, hk', Cache.wf_freeCache, fun d w hw => ?_, fun d hd => ?_,
        fun w p hp => ?_⟩
      · simp [hnone] at hw
      · simp at hd
      · simp [Cache.look_freeCache] at hp
    · intro done r t ht hr
      refine (ht.watchSubtree hr).mono (fun _ he => he) fun u hu => hu.congr fun d => ?_
      simp only [List.mem_append, List.mem_singleton, or_and_right, exists_or, exists_eq_left]

/-- A directory of `S` has one slot. -/
theorem Scanned.existsUnique_slot (h : F.Scanned k₀ S s) {d : ι} (hd : S d) :
    ∃! j, ∃ w, s.cache.Live j w ∧ F.resolve w.path = some d := by
  obtain ⟨wd, hwd⟩ := h.covers d hd
  obtain ⟨-, p, hp, hres⟩ := h.known d wd hwd
  have hpos := h.wf.one_le_of_look hp
  obtain ⟨j, -, hj⟩ := h.wf.findWatch_look hpos hp
  refine ⟨j, ⟨_, ⟨h.wf.slots_eq ▸ hj, show 0 ≤ wd by omega⟩, hres⟩, ?_⟩
  rintro i ⟨w, ⟨hi, hw⟩, hres'⟩
  rw [h.wf.slots_eq] at hi
  have hlook : s.cache.look w.wd = some w.path :=
    h.wf.look_iff.mpr ⟨by omega, List.mem_of_getElem? hi⟩
  obtain ⟨e, he⟩ := h.live w.wd w.path hlook
  obtain ⟨-, q, hq, hres''⟩ := h.known e w.wd he
  obtain rfl : w.path = q := Option.some.inj (hlook.symm.trans hq)
  obtain rfl : d = e := Option.some.inj (hres'.symm.trans hres'')
  have hwd' : w.wd = wd := Option.some.inj (he.symm.trans hwd)
  exact h.wf.wd_inj hi hj hw hwd'

theorem Scanned.live_entry (h : F.Scanned k₀ S s) {j : Nat} {w : Watch}
    (hw : s.cache.Live j w) : ∃ d, S d ∧ F.resolve w.path = some d := by
  obtain ⟨hj, hpos⟩ := hw
  have hlook : s.cache.look w.wd = some w.path :=
    h.wf.look_iff.mpr ⟨by omega, List.mem_of_getElem? (h.wf.slots_eq ▸ hj)⟩
  obtain ⟨d, hd⟩ := h.live w.wd w.path hlook
  obtain ⟨hS, q, hq, hres⟩ := h.known d w.wd hd
  obtain rfl : w.path = q := Option.some.inj (hlook.symm.trans hq)
  exact ⟨d, hS, hres⟩

end StillFs

/-- Whatever the cache was before, after a rebuild it has one live entry for each directory in the
trees under the roots, whose pathname names the directory, and no other live entry. The rebuild
fails only if the kernel refuses a call. -/
theorem reinitialize_exact (s : State κ) (F : StillFs K ι s.rootDirPaths.reduceOption)
    (oldInotifyFd : Int) (hstill : F.Still s.kernel) :
    (∃ t, reinitialize K s oldInotifyFd = .ok t ∧
      (∀ d, F.InTrees d → ∃! j, ∃ w, t.cache.Live j w ∧ F.resolve w.path = some d) ∧
      ∀ j w, t.cache.Live j w → ∃ d, F.InTrees d ∧ F.resolve w.path = some d) ∨
    reinitialize K s oldInotifyFd = .error .exitFailure ∧ ¬F.Granted (s.closed K oldInotifyFd) := by
  have h := StillFs.reinitialize_scanned (F := F) rfl oldInotifyFd hstill
  cases hrun : reinitialize K s oldInotifyFd with
  | ok t =>
    have ht := h.of_ok hrun
    exact .inl ⟨t, rfl, fun d hd => ht.existsUnique_slot hd, fun j w hw => ht.live_entry hw⟩
  | error e =>
    obtain ⟨rfl, hg⟩ := h.of_error hrun
    exact .inr ⟨rfl, hg⟩

/-- The directory `/a` is `false` and its subdirectory `/a/b` is `true`. -/
def nestedResolve (p : CString) : Option Bool :=
  if p = ['/', 'a'] then some false else if p = ['/', 'a', '/', 'b'] then some true else none

/-- The state says which directories have a watch; `/a/f` is a file. -/
def nestedDirs : Kernel (Bool → Bool) where
  inotifyInit _ := some (3, fun _ => false)
  close k _ := k
  addWatch k _ path _ :=
    match nestedResolve path with
    | none => (.error .enoent, k)
    | some d => (.ok (if d then 1 else 2), Function.update k d true)
  rmWatch _ _ _ := none
  nftw _ path :=
    match nestedResolve path with
    | none => []
    | some false =>
      [(['/', 'a'], true), (['/', 'a', '/', 'f'], false), (['/', 'a', '/', 'b'], true)]
    | some true => [(['/', 'a', '/', 'b'], true)]
  lstat _ path := (nestedResolve path).map fun _ => true
  one_le_addWatch := by
    intro k fd path flags wd k' h
    split at h
    · cases h
    · cases h
      split <;> decide

/-- The roots `/a/b` and `/a`, and a root that was zapped. -/
def nestedRoots : State (Bool → Bool) where
  cache := { wlCache := [⟨7, ['x']⟩, ⟨7, ['y']⟩], cacheSize := 2 }
  rootDirPaths := [some ['/', 'a', '/', 'b'], none, some ['/', 'a']]
  ignoreRootDirs := 1
  inotifyFd := 3
  abortOnCacheProblem := false
  checkCache := false
  kernel := fun _ => true
  halfZapped := true

/-- The tree under `/a/b` is `/a/b` alone. -/
theorem nested_reaches {d : Bool}
    (h : Relation.ReflTransGen (fun i d => i = false ∧ d = true) true d) : d = true := by
  cases h with
  | refl => rfl
  | tail _ h => exact h.2

def nestedFs : StillFs nestedDirs Bool nestedRoots.rootDirPaths.reduceOption where
  resolve := nestedResolve
  Sub i d := i = false ∧ d = true
  Still _ := True
  wdOf k _ d := if k d then some (if d then 1 else 2) else none
  resolve_nil := rfl
  close _ _ := trivial
  inotifyInit _ h := by
    cases h
    exact ⟨trivial, fun d => rfl⟩
  addWatch_ne_enoent := by
    intro k fd p flags d e k' _ hp h
    simp [nestedDirs, hp] at h
  addWatch := by
    intro k fd p flags d wd k' _ hp h
    simp only [nestedDirs, hp, Prod.mk.injEq, Except.ok.injEq] at h
    obtain ⟨rfl, rfl⟩ := h
    refine ⟨trivial, by simp, fun e he => by simp [he], fun e he => ?_, fun w hw => ?_⟩
    · cases d <;> cases e <;> simp_all
    · cases d <;> simp_all
  nftw := by
    intro k _ r _
    simp only [nestedDirs]
    cases hr : nestedResolve r with
    | none => simp
    | some i =>
      cases i with
      | false =>
        refine ⟨fun p hp => ?_, fun i d hi hd => ?_⟩
        · have hp : p = ['/', 'a'] ∨ p = ['/', 'a', '/', 'b'] := by simpa using hp
          rcases hp with rfl | rfl
          · exact ⟨false, false, rfl, .refl, rfl⟩
          · exact ⟨false, true, rfl, .single ⟨rfl, rfl⟩, rfl⟩
        · cases d with
          | false => exact ⟨['/', 'a'], by simp, rfl⟩
          | true => exact ⟨['/', 'a', '/', 'b'], by simp, rfl⟩
      | true =>
        refine ⟨fun p hp => ?_, fun i d hi hd => ?_⟩
        · obtain rfl : p = ['/', 'a', '/', 'b'] := by simpa using hp
          exact ⟨true, true, rfl, .refl, rfl⟩
        · cases hi
          obtain rfl := nested_reaches hd
          exact ⟨['/', 'a', '/', 'b'], by simp, rfl⟩

/-- The second visit of `/a/b` adds nothing. -/
theorem reinitialize_exact_nested : ∃ t, reinitialize nestedDirs nestedRoots 3 = .ok t ∧
    t.cache.wlCache.take 3 = [⟨1, ['/', 'a', '/', 'b']⟩, ⟨2, ['/', 'a']⟩, .empty] ∧
    ∃! j, ∃ w, t.cache.Live j w ∧ nestedResolve w.path = some true := by
  rcases reinitialize_exact nestedRoots nestedFs 3 trivial with ⟨t, ht, hex, -⟩ | ⟨herr, -⟩
  · refine ⟨t, ht, ?_, hex true ⟨['/', 'a', '/', 'b'], ?_, true, rfl, .refl⟩⟩
    · cases ht
      rfl
    · exact List.mem_cons_self ..
  · cases herr

end Tlpi.InotifyDtree
