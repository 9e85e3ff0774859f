import Tlpi.Inotify.DtreeMonitor

/-!
# The cache stays true

In every run in which the renames do not interfere with scans that are still to come, the cache
agrees with the file system whenever the queue is empty.
-/

namespace Tlpi.InotifyDtree

open Notice

variable {roots : List CString} {N : Nftw} {s t : State Fs} {M : View} {fs fs' : Fs}

/-! ### The operations on the file system -/

theorem Gone.mono {q : List Notice} (h : Gone roots fs M q)
    (hdirs : ∀ d ∈ fs'.dirs, d.path ∈ roots → d ∈ fs.dirs) : Gone roots fs' M q :=
  AllAlong.mono h fun _ _ hP r hr hrem d hd hdr => hP r hr hrem d (hdirs d hd (hdr ▸ hr)) hdr

theorem Gone.append {q q' : List Notice} (h : Gone roots fs M q)
    (hq' : ∀ n ∈ q', ∀ M, n.removes M = none) : Gone roots fs M (q ++ q') :=
  allAlong_append.mpr ⟨h, allAlong_of_forall fun n hn M _ _ hrem =>
    absurd (hrem.symm.trans (hq' n hn M)) nofun⟩

theorem Gone.evict {d : Dir} (h : Gone roots fs M fs.queue) (ht : Tracks roots M fs.queue fs)
    (hd : d ∈ fs.dirs) (hroot : d.path ∈ roots → ∀ e ∈ (fs.evict d.ino).dirs, e.path ≠ d.path) :
    Gone roots (fs.evict d.ino) M (fs.evict d.ino).queue := by
  refine allAlong_append.mpr ⟨h.mono fun e he _ => (mem_evict.mp he).1, ?_⟩
  cases hm : fs.markOf d.ino with
  | none => trivial
  | some m =>
    refine ⟨fun r hr hrem => ?_, nofun, trivial⟩
    obtain rfl := Option.some.inj (hrem.symm.trans (ht.replay_mark hd hm))
    exact hroot hr

theorem InStep.mkdir (hroots : Roots roots) (h : InStep roots s s.kernel.queue) {parent name : CString}
    (hm : s.kernel.mkdir parent name = some fs') (hlen : (parent ++ '/' :: name).length < PATH_MAX) :
    InStep roots { s with kernel := fs' } fs'.queue := by
  have htree := h.tree.mkdir hm hlen
  have htracks := h.tracks.mkdir h.tree hm hlen
  obtain ⟨p, hp, rfl, -, -, rfl⟩ := mkdir_cases hm
  have hdirs : ∀ d ∈ s.kernel.dirs ++ [⟨s.kernel.nextIno, p.path ++ '/' :: name⟩],
      d.path ∈ roots → d ∈ s.kernel.dirs := fun d hd hr => by
    refine (List.mem_append.mp hd).resolve_right fun hd => ?_
    rw [List.mem_singleton.mp hd] at hr
    exact h.tree.not_under_root hroots hp hr (.refl ..)
  refine ⟨h.wf, htree, htracks, fun d hd hr => h.rootDirs d (hdirs d hd hr) hr, ?_⟩
  refine (h.gone.mono hdirs).append fun n hn M => ?_
  rw [Option.mem_toList, Option.map_eq_some_iff] at hn
  obtain ⟨m, -, rfl⟩ := hn
  rfl

theorem InStep.rmdir (h : InStep roots s s.kernel.queue) {path : CString}
    (hm : s.kernel.rmdir path = some fs') : InStep roots { s with kernel := fs' } fs'.queue := by
  have htree := h.tree.rmdir hm
  obtain ⟨d, hd, rfl, -, rfl⟩ := rmdir_cases hm
  refine ⟨h.wf, htree, h.tracks.evict hd, fun e he hr => h.rootDirs e (mem_evict.mp he).1 hr, ?_⟩
  refine h.gone.evict h.tracks hd fun _ e he heq => (mem_evict.mp he).2 ?_
  rw [h.tree.path_inj e (mem_evict.mp he).1 d hd heq]

/-- The directory with the pathname `path` has a watch. -/
def Fs.watched (fs : Fs) (path : CString) : Bool :=
  ((fs.dirAt path).bind fun d => fs.markOf d.ino).isSome

/-- The condition under which the monitor keeps up with a rename: its new parent is watched and no
scan that is still to come is above or below the directory, or nothing of what moves is watched yet
and no watched directory is replaced. -/
structure RenameTracked (s : State Fs) (parent old parent' new : CString) : Prop where
  length_lt : ∀ d ∈ s.kernel.dirs, Under '/' old d.path → (d.move old new).path.length < PATH_MAX
  cases : (s.kernel.watched parent' ∧ Untouched old s.cache.look s.kernel.queue) ∨
    (¬s.kernel.watched parent ∧
      (∀ d ∈ s.kernel.dirs, Under '/' old d.path → ¬s.kernel.watched d.path) ∧
      (s.kernel.watched parent' → ¬s.kernel.watched new))

theorem Tree.watched_iff (h : Tree roots fs) {d : Dir} (hd : d ∈ fs.dirs) :
    fs.watched d.path ↔ (fs.markOf d.ino).isSome := by
  rw [Fs.watched, h.dirAt_path hd]
  rfl

theorem Tree.not_watched_iff (h : Tree roots fs) {d : Dir} (hd : d ∈ fs.dirs) :
    ¬fs.watched d.path ↔ fs.markOf d.ino = none := by
  rw [h.watched_iff hd, Option.not_isSome_iff_eq_none]

/-- A scan above the parent would be above the directory. -/
theorem Tracks.isSome_parent {p : Dir} {name : CString} (h : Tracks roots M fs.queue fs)
    (hp : p ∈ fs.dirs) (hu : Untouched (p.path ++ '/' :: name) M fs.queue) :
    (fs.markOf p.ino).isSome := by
  cases hm : fs.markOf p.ino with
  | some m => rfl
  | none =>
    obtain ⟨M', n, ⟨F, hF, hFp⟩, hapart⟩ := SomeAlong.and_all (h.covered p hp hm) hu
    exact absurd (hFp.trans (.child ..)) (hapart F hF).1

theorem InStep.tracks_move (h : InStep roots s s.kernel.queue) {p p' : Dir} {name name' : CString}
    (hp : p ∈ s.kernel.dirs) (hp' : p' ∈ s.kernel.dirs)
    (hold : ∃ d ∈ s.kernel.dirs, d.path = p.path ++ '/' :: name)
    (hr : RenameTracked s p.path (p.path ++ '/' :: name) p'.path (p'.path ++ '/' :: name')) :
    Tracks roots s.cache.look (s.kernel.move p p' name name').queue
      (s.kernel.move p p' name name') := by
  rcases hr.cases with ⟨hw, hu⟩ | ⟨hw, hsub, hnew⟩
  · obtain ⟨m, hm⟩ := Option.isSome_iff_exists.mp (h.tracks.isSome_parent hp hu)
    obtain ⟨m', hm'⟩ := Option.isSome_iff_exists.mp ((h.tree.watched_iff hp').mp hw)
    exact h.tracks.move_renamed h.tree hp hp' hm hm' hold hr.length_lt hu
  · refine h.tracks.move_unwatched h.tree hp' ((h.tree.not_watched_iff hp).mp hw) hold hr.length_lt
      (fun d hd hdu => (h.tree.not_watched_iff hd).mp (hsub d hd hdu)) fun hw' d hd hdn => ?_
    rw [← h.tree.not_watched_iff hd, hdn]
    exact hnew ((h.tree.watched_iff hp').mpr hw')

theorem removes_moveNotices {name name' : CString} {cookie : BitVec 32} {m m' : Option Mark} :
    ∀ n ∈ Fs.moveNotices name name' cookie m m', ∀ M, n.removes M = none := by
  cases m <;> cases m' <;> simp [Fs.moveNotices, removes]

theorem Tree.renameIn (hroots : Roots roots) (h : Tree roots fs) {p p' : Dir} {name name' : CString}
    (hp : p ∈ fs.dirs) (hp' : p' ∈ fs.dirs) (hslash : '/' ∉ name')
    (hunder : ¬Under '/' (p.path ++ '/' :: name) (p'.path ++ '/' :: name'))
    (hempty : (fs.dirAt (p'.path ++ '/' :: name')).isSome → fs.IsEmpty (p'.path ++ '/' :: name')) :
    RenameIn roots fs p' (p.path ++ '/' :: name) name' := by
  refine ⟨hp', hslash, hunder, fun d hd hu => ?_, fun r hr => h.not_under_root hroots hp hr⟩
  obtain ⟨e, -, her, hep⟩ := h.exists_root hp'
  obtain ⟨f, hf, hfn⟩ := h.exists_above hroots hd her (hep.trans (.child ..)) hu
  refine hempty ?_ d hd (isUnder_iff.mpr hu)
  rw [← hfn, h.dirAt_path hf]
  rfl

/-- No directory moves to the pathname of a root. -/
theorem Tree.mem_of_mem_move (hroots : Roots roots) (h : Tree roots fs) {p p' e : Dir}
    {name name' : CString} (hp' : p' ∈ fs.dirs) (he : e ∈ (fs.move p p' name name').dirs)
    (her : e.path ∈ roots) : e ∈ fs.dirs := by
  obtain ⟨d, hd, rfl⟩ := mem_move.mp he
  by_cases hdu : Under '/' (p.path ++ '/' :: name) d.path
  · rw [Dir.move_under hdu] at her
    exact absurd (hdu.drop_append _) (h.not_under_root hroots hp' her)
  · rwa [Dir.move_not_under hdu]

theorem InStep.rename (hroots : Roots roots) (h : InStep roots s s.kernel.queue)
    {parent name parent' name' : CString}
    (hm : s.kernel.rename parent name parent' name' = some fs')
    (hr : parent ++ '/' :: name = parent' ++ '/' :: name' ∨
      RenameTracked s parent (parent ++ '/' :: name) parent' (parent' ++ '/' :: name')) :
    InStep roots { s with kernel := fs' } fs'.queue := by
  obtain ⟨-, rfl⟩ | ⟨p, hp, rfl, p', hp', rfl, hold, hslash, hunder, hempty, rfl⟩ := rename_cases hm
  · exact h
  have hr := hr.resolve_left fun heq => hunder (heq ▸ .refl ..)
  have htree := h.tree.rename (h.tree.renameIn hroots hp hp' hslash hunder hempty) hr.length_lt
  have htracks := h.tracks_move hp hp' hold hr
  have hdirs : ∀ e ∈ (s.kernel.move p p' name name').dirs, e.path ∈ roots → e ∈ s.kernel.dirs :=
    fun e he her => h.tree.mem_of_mem_move hroots hp' he her
  have hgone : Gone roots (s.kernel.move p p' name name') s.cache.look
      (s.kernel.move p p' name name').queue :=
    (h.gone.mono hdirs).append removes_moveNotices
  cases hat : s.kernel.dirAt (p'.path ++ '/' :: name') with
  | none =>
    rw [hat] at htree
    exact ⟨h.wf, htree, htracks, fun d hd hr => h.rootDirs d (hdirs d hd hr) hr, hgone⟩
  | some t =>
    rw [hat] at htree
    obtain ⟨ht, htp⟩ := dirAt_mem hat
    have htm : t ∈ (s.kernel.move p p' name name').dirs :=
      mem_move.mpr ⟨t, ht, (Dir.move_not_under (htp ▸ hunder)).symm⟩
    refine ⟨h.wf, htree, htracks.evict htm, fun d hd hr => ?_, ?_⟩
    · exact h.rootDirs d (hdirs d (mem_evict.mp hd).1 hr) hr
    · refine Gone.evict hgone htracks htm fun htr => ?_
      rw [htp] at htr
      exact absurd (.refl ..) (h.tree.not_under_root hroots hp' htr)

/-! ### Runs -/

/-- The steps with which the monitor keeps up. -/
def Tracked (s : State Fs) : WorldStep → Prop
  | .mkdir parent name => (parent ++ '/' :: name).length < PATH_MAX
  | .rename parent name parent' name' => parent ++ '/' :: name = parent' ++ '/' :: name' ∨
    RenameTracked s parent (parent ++ '/' :: name) parent' (parent' ++ '/' :: name')
  | .rmdir _ | .monitor _ _ => True

theorem InStep.next (hroots : Roots roots) (h : InStep roots s s.kernel.queue) {a : WorldStep}
    (ha : Tracked s a) (hn : (world N).next s a = some t) : InStep roots t t.kernel.queue := by
  cases a with
  | mkdir parent name =>
    obtain ⟨k, hk, rfl⟩ := Option.map_eq_some_iff.mp hn
    exact h.mkdir hroots hk ha
  | rmdir path =>
    obtain ⟨k, hk, rfl⟩ := Option.map_eq_some_iff.mp hn
    exact h.rmdir hk
  | rename parent name parent' name' =>
    obtain ⟨k, hk, rfl⟩ := Option.map_eq_some_iff.mp hn
    exact h.rename hroots hk ha
  | monitor more firstTry => exact h.monitor hroots hn

theorem inStep_built (hroots : Roots roots) (ht : Tree roots s.kernel)
    (hpaths : s.rootDirPaths = roots.map some) (h : reinitialize (fsKernel N) s (-1) = .ok t) :
    InStep roots t t.kernel.queue := by
  obtain ⟨hroot, hwf, hqueue, htree, htracks⟩ := reinitialize_scan hroots ht hpaths h
  rw [hqueue]
  refine ⟨hwf, htree, htracks, fun d _ hr => ?_, trivial⟩
  rw [hroot, hpaths]
  exact List.mem_map_of_mem hr

/-- Whenever the monitor is through with its queue, the cache agrees with the file system, in every
run from the start whose steps are all tracked. -/
theorem cacheTrue_of_tracked (N : Nftw) {roots : List CString} (hroots : Roots roots)
    {s₀ s₁ s : State Fs} (ht : Tree roots s₀.kernel) (hpaths : s₀.rootDirPaths = roots.map some)
    (hinit : reinitialize (fsKernel N) s₀ (-1) = .ok s₁)
    (hrun : (world N).ReachableBy Tracked s₁ s) (hqueue : s.kernel.queue = []) : CacheTrue s := by
  have h : InStep roots s s.kernel.queue :=
    hrun.invariant (P := fun s => InStep roots s s.kernel.queue)
      (inStep_built hroots ht hpaths hinit) fun _ _ _ hs ha hn => hs.next hroots ha hn
  rw [hqueue] at h
  exact h.cacheTrue

/-- A traversal in the order in which the directories were made. -/
def oldestFirst : Nftw where
  visit dirs path := dirs.filter fun d => isUnder path d.path
  mem_visit := by simp

/-- The program before the initial build of the cache, with an empty root. -/
def emptyRoot : State Fs where
  cache := .freeCache
  rootDirPaths := [some ['r']]
  ignoreRootDirs := 0
  inotifyFd := -1
  abortOnCacheProblem := false
  checkCache := false
  kernel := ⟨[⟨1, ['r']⟩], 2, [], 0, [], 0⟩
  halfZapped := false

/-- The program has built the cache. -/
def emptyRootBuilt : State Fs := { emptyRoot with
  cache := ⟨⟨1, ['r']⟩ :: List.replicate 199 .empty, 200⟩
  inotifyFd := 3
  kernel := ⟨[⟨1, ['r']⟩], 2, [⟨1, 1, by decide⟩], 1, [], 0⟩ }

/-- A directory was made and the monitor has scanned it. -/
def childScanned : State Fs := { emptyRootBuilt with
  cache := ⟨⟨1, ['r']⟩ :: ⟨2, ['r', '/', 'a']⟩ :: List.replicate 198 .empty, 200⟩
  kernel := ⟨[⟨1, ['r']⟩, ⟨2, ['r', '/', 'a']⟩], 3, [⟨1, 1, by decide⟩, ⟨2, 2, by decide⟩], 2, [], 0⟩ }

theorem roots_emptyRoot : Roots [['r']] := by
  refine ⟨?_, ?_, ?_⟩ <;> simp

theorem tree_emptyRoot : Tree [['r']] emptyRoot.kernel := by
  refine ⟨?_, ?_, ?_, ?_, ?_⟩ <;> simp [emptyRoot, PATH_MAX]

theorem reinitialize_emptyRoot :
    reinitialize (fsKernel oldestFirst) emptyRoot (-1) = .ok emptyRootBuilt := rfl

/-- A directory is renamed when the monitor has scanned it. -/
theorem cacheTrue_of_tracked_scanned : ∃ s, (world oldestFirst).ReachableBy Tracked emptyRootBuilt s ∧
    s.kernel.dirs = [⟨1, ['r']⟩, ⟨2, ['r', '/', 'b']⟩] ∧ s.kernel.queue = [] ∧ CacheTrue s := by
  obtain ⟨t, hmkdir, hscan⟩ : ∃ t,
      (world oldestFirst).next emptyRootBuilt (.mkdir ['r'] ['a']) = some t ∧
      (world oldestFirst).next t (.monitor true true) = some childScanned := ⟨_, rfl, rfl⟩
  obtain ⟨u, s, hrename, hmonitor, hdirs, hqueue⟩ : ∃ u s,
      (world oldestFirst).next childScanned (.rename ['r'] ['a'] ['r'] ['b']) = some u ∧
      (world oldestFirst).next u (.monitor true true) = some s ∧
      s.kernel.dirs = [⟨1, ['r']⟩, ⟨2, ['r', '/', 'b']⟩] ∧ s.kernel.queue = [] :=
    ⟨_, _, rfl, rfl, rfl, rfl⟩
  have hlen : ∀ d ∈ childScanned.kernel.dirs,
      (d.move ['r', '/', 'a'] ['r', '/', 'b']).path.length < PATH_MAX := by decide
  have hnew : Tracked emptyRootBuilt (.mkdir ['r'] ['a']) := by
    change 3 < PATH_MAX
    decide
  have hmoved : Tracked childScanned (.rename ['r'] ['a'] ['r'] ['b']) :=
    .inr ⟨fun d hd _ => hlen d hd, .inl ⟨rfl, trivial⟩⟩
  have hscanned : (world oldestFirst).ReachableBy Tracked emptyRootBuilt childScanned :=
    .step (a := .monitor true true) (.step .refl hnew hmkdir) trivial hscan
  have hrun : (world oldestFirst).ReachableBy Tracked emptyRootBuilt s :=
    .step (a := .monitor true true) (.step hscanned hmoved hrename) trivial hmonitor
  exact ⟨s, hrun, hdirs, hqueue, cacheTrue_of_tracked oldestFirst roots_emptyRoot tree_emptyRoot rfl
    reinitialize_emptyRoot hrun hqueue⟩

/-- A directory is renamed before the monitor scans it, and is never watched. -/
theorem not_cacheTrue : ¬∀ (N : Nftw) (roots : List CString) (s₀ s₁ s : State Fs), Roots roots →
    Tree roots s₀.kernel → s₀.rootDirPaths = roots.map some →
    reinitialize (fsKernel N) s₀ (-1) = .ok s₁ → (world N).Reachable s₁ s → s.kernel.queue = [] →
    CacheTrue s := by
  intro h
  obtain ⟨s, hs, hqueue, hdir, hroot, hmarks⟩ :=
    (Machine.Reachable.self (world oldestFirst) emptyRootBuilt).exists_of_run
      (P := fun s => s.kernel.queue = [] ∧ ⟨2, ['r', '/', 'b']⟩ ∈ s.kernel.dirs ∧
        some ['r'] ∈ s.rootDirPaths ∧ ∀ m ∈ s.kernel.marks, m.ino ≠ 2)
      [.mkdir ['r'] ['a'], .rename ['r'] ['a'] ['r'] ['b'], .monitor true true, .monitor true true]
      ⟨_, rfl, rfl, by decide, by decide, by decide⟩
  have htrue := h oldestFirst [['r']] emptyRoot emptyRootBuilt s roots_emptyRoot tree_emptyRoot rfl
    reinitialize_emptyRoot hs hqueue
  obtain ⟨m, hm, hino⟩ := htrue.watched _ hdir ⟨['r'], hroot, rfl⟩
  exact hmarks m hm hino

end Tlpi.InotifyDtree
