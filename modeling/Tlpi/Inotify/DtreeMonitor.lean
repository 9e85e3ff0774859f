import Tlpi.Inotify.DtreeReadRuns
import Tlpi.Inotify.DtreeScan

/-!
# The steps of the monitor

What `processNextInotifyEvent` does for each entry of the queue of the modelled file system, and that
it stays in step with the rest of the queue.
-/

namespace Tlpi.InotifyDtree

open Notice

variable {roots : List CString} {N : Nftw} {s t : State Fs} {n : Notice} {q : List Notice}

/-! ### Events -/

section Event

variable {ev : Event} {nextEv : Option Event} {firstTry : Bool} {p : CString}

/-- Everything that `lstat` finds is a directory. -/
theorem finishEvent_fs (s : State Fs) (evLen : Nat) :
    finishEvent (fsKernel N) s evLen = .ok (s, (evLen : Int)) := by
  have hlstat : ∀ path, ((fsKernel N).lstat s.kernel path == some false) = false := fun path => by
    change ((s.kernel.dirAt path).map (fun _ => true) == some false) = false
    cases s.kernel.dirAt path <;> rfl
  have hcheck : checkCacheConsistency (fsKernel N) s = .ok () := by
    rw [checkCacheConsistency, if_neg]
    simp [hlstat]
  rw [finishEvent, hcheck]
  split <;> rfl

theorem slotPath_eq {j : Nat} {w : Watch} (h : s.cache.wlCache[j]? = some w) :
    slotPath s (some j) = .ok w.path := by
  simp only [slotPath, h]

/-- The watch descriptor of the event is in the cache. -/
theorem processNextInotifyEvent_found (hwf : s.cache.WF) (hp : s.cache.look ev.wd = some p)
    (hev : ev.has IN_IGNORED = false) :
    ∃ j, s.cache.wlCache[j]? = some ⟨ev.wd, p⟩ ∧ ∀ nextEv firstTry,
      processNextInotifyEvent (fsKernel N) s ev nextEv firstTry =
        processEvent (fsKernel N) s (some j) ev nextEv firstTry := by
  have hpos := hwf.one_le_of_look hp
  obtain ⟨j, hfind, hj⟩ := hwf.findWatch_look hpos hp
  refine ⟨j, hj, fun nextEv firstTry => ?_⟩
  rw [processNextInotifyEvent, if_pos ⟨by omega, hev⟩, findWatchChecked, hfind]
  rfl

theorem process_create (hwf : s.cache.WF) (hp : s.cache.look ev.wd = some p)
    (hmask : ev.mask = IN_CREATE ||| IN_ISDIR ∨ ev.mask = IN_MOVED_TO ||| IN_ISDIR) :
    processNextInotifyEvent (fsKernel N) s ev nextEv firstTry =
      (·, (ev.size : Int)) <$> (if s.cache.pathnameInCache (eventPath p ev.name) then .ok s
        else watchSubtree (fsKernel N) s (eventPath p ev.name)) := by
  have hev : ev.has IN_IGNORED = false := by
    rcases hmask with hmask | hmask <;> rw [Event.has, hmask] <;> decide
  have hbits : (ev.has IN_ISDIR && ev.has (IN_CREATE ||| IN_MOVED_TO)) = true := by
    rcases hmask with hmask | hmask <;> rw [Event.has, Event.has, hmask] <;> decide
  obtain ⟨j, hj, hrun⟩ := processNextInotifyEvent_found (N := N) hwf hp hev
  rw [hrun, processEvent, if_pos hbits, slotPath_eq hj]
  simp only [finishEvent_fs]
  rfl

theorem process_renamed (ev nextEv : Event) {p' : CString} (hwf : s.cache.WF)
    (hp : s.cache.look ev.wd = some p) (hp' : s.cache.look nextEv.wd = some p')
    (hmask : ev.mask = IN_MOVED_FROM ||| IN_ISDIR) (hnext : nextEv.mask = IN_MOVED_TO ||| IN_ISDIR)
    (hcookie : nextEv.cookie = ev.cookie) :
    processNextInotifyEvent (fsKernel N) s ev (some nextEv) firstTry = .ok ({ s with
      cache := s.cache.rewriteCachedPaths p ev.name p' nextEv.name }, (ev.size + nextEv.size : Nat)) := by
  have hhas : ∀ bits, ev.has bits = ((IN_MOVED_FROM ||| IN_ISDIR) &&& bits != 0) := fun bits => by
    rw [Event.has, hmask]
  obtain ⟨j, hj, hrun⟩ := processNextInotifyEvent_found (N := N) hwf hp (hhas _)
  obtain ⟨j', hfind, hj'⟩ := hwf.findWatch_look (hwf.one_le_of_look hp') hp'
  rw [hrun, processEvent, if_neg (by rw [hhas, hhas]; decide), if_neg (by rw [hhas]; decide),
    if_pos (by rw [Event.movedFromDir, hmask]; decide), processMovedFrom,
    Option.filter_some, if_pos (by rw [Event.has, hnext, hcookie, beq_self_eq_true]; decide)]
  simp only [findWatchChecked, hfind, slotPath_eq hj, bind, Except.bind, slotPath_eq hj',
    finishEvent_fs]

theorem process_deleteSelf (ev : Event) (hwf : s.cache.WF) (hp : s.cache.look ev.wd = some p)
    (hmask : ev.mask = IN_DELETE_SELF) :
    ∃ j, s.cache.wlCache[j]? = some ⟨ev.wd, p⟩ ∧
      processNextInotifyEvent (fsKernel N) s ev nextEv firstTry =
        (fun t => ({ t with cache := t.cache.markCacheSlotEmpty j }, (ev.size : Int))) <$>
          (if isRootDirPath s p then zapRootDirPath s p else .ok s) := by
  have hhas : ∀ bits, ev.has bits = (IN_DELETE_SELF &&& bits != 0) := fun bits => by
    rw [Event.has, hmask]
  obtain ⟨j, hj, hrun⟩ := processNextInotifyEvent_found (N := N) hwf hp (hhas _)
  refine ⟨j, hj, ?_⟩
  rw [hrun, processEvent, if_neg (by rw [hhas, hhas]; decide), if_pos (by rw [hhas]; decide),
    slotPath_eq hj]
  have hzap : Post (fun _ => True) (fun t : State Fs => t.cache = s.cache)
      (if isRootDirPath s p then zapRootDirPath s p else .ok s) :=
    Post.ite (fun _ => (zapRootDirPath_spec p).mono (fun _ _ => trivial) fun _ h => h.1) fun _ =>
      Post.ok_iff.mpr rfl
  simp only [finishEvent_fs, bind, Except.bind]
  generalize (if isRootDirPath s p then zapRootDirPath s p else .ok s) = x at hzap ⊢
  cases x with
  | error e => rfl
  | ok t =>
    have hlt : j < t.cache.wlCache.length :=
      Post.ok_iff.mp hzap ▸ (List.getElem?_eq_some_iff.mp hj).1
    simp only [clearSlot, if_pos hlt]
    rfl

theorem process_ignored (hmask : ev.mask = IN_IGNORED) :
    processNextInotifyEvent (fsKernel N) s ev nextEv firstTry = .ok (s, (ev.size : Int)) := by
  have hhas : ∀ bits, ev.has bits = (IN_IGNORED &&& bits != 0) := fun bits => by
    rw [Event.has, hmask]
  have hmoved : ¬ev.movedFromDir = true := by
    rw [Event.movedFromDir, hmask]
    decide
  rw [processNextInotifyEvent, if_neg fun h => absurd h.2 (by rw [hhas]; decide), processEvent,
    if_neg (by rw [hhas, hhas]; decide), if_neg (by rw [hhas]; decide), if_neg hmoved,
    if_neg (by rw [hhas]; decide), if_neg (by rw [hhas]; decide), if_neg (by rw [hhas]; decide),
    finishEvent_fs]

end Event

/-! ### The invariant -/

/-- The pathname of the directory whose end an entry reports. -/
def Notice.removes (M : View) : Notice → Option CString
  | deleteSelf wd => M wd
  | _ => none

/-- A root whose end the queue reports does not exist any more. -/
def Gone (roots : List CString) (fs : Fs) : View → List Notice → Prop :=
  AllAlong Notice.apply fun M n => ∀ r ∈ roots, n.removes M = some r → ∀ d ∈ fs.dirs, d.path ≠ r

/-- The monitor has yet to deal with the queue `q`, and then its variables are right. -/
structure InStep (roots : List CString) (s : State Fs) (q : List Notice) : Prop where
  wf : s.cache.WF
  tree : Tree roots s.kernel
  tracks : Tracks roots s.cache.look q s.kernel
  rootDirs : ∀ d ∈ s.kernel.dirs, d.path ∈ roots → some d.path ∈ s.rootDirPaths
  gone : Gone roots s.kernel s.cache.look q

theorem InStep.setQueue (h : InStep roots s q) (q' : List Notice) :
    InStep roots { s with kernel := { s.kernel with queue := q' } } q where
  wf := h.wf
  tree := ⟨h.tree.ino_inj, h.tree.path_inj, h.tree.ino_lt, h.tree.path_lt, h.tree.closed⟩
  tracks := ⟨⟨h.tracks.marks.ino_inj, h.tracks.marks.wd_inj, h.tracks.marks.dir, h.tracks.marks.le⟩,
    h.tracks.truth, h.tracks.known, h.tracks.stable, h.tracks.rooted, h.tracks.covered,
    h.tracks.bound⟩
  rootDirs := h.rootDirs
  gone := h.gone

/-- When the queue is through, the cache is right. -/
theorem InStep.cacheTrue (h : InStep roots s []) : CacheTrue s := by
  have hunder : ∀ d ∈ s.kernel.dirs, UnderRoot s d.path := fun d hd => by
    obtain ⟨e, he, hr, hu⟩ := h.tree.exists_root hd
    exact ⟨e.path, h.rootDirs e he hr, isUnder_iff.mpr hu⟩
  refine ⟨fun d hd _ => ?_, fun wd path => ?_⟩
  · cases hm : s.kernel.markOf d.ino with
    | none => exact (h.tracks.covered d hd hm).elim
    | some m => exact ⟨m, markOf_mem hm⟩
  · rw [← h.wf.look_iff]
    refine (h.tracks.truth wd path).trans ⟨?_, ?_⟩
    · rintro ⟨d, hd, hpath, hm⟩
      exact ⟨d, hd, hunder d hd, hpath, hm⟩
    · rintro ⟨d, hd, -, hpath, hm⟩
      exact ⟨d, hd, hpath, hm⟩

/-! ### Entries -/

/-- The monitor scans a directory that is not in the cache. -/
theorem InStep.watchSubtree (hroots : Roots roots) (h : InStep roots s (n :: q)) {F : CString}
    (hF : n.WillScan s.cache.look F) :
    ∃ t, watchSubtree (fsKernel N) s F = .ok t ∧ InStep roots t q ∧
      t.kernel.queue = s.kernel.queue := by
  obtain ⟨t, hrun, hscan⟩ := watchSubtree_scan (N := N) hroots h.tree h.wf h.tracks.sane F
  have happ := apply_of_scans hF.1
  have hS : ∀ d ∈ s.kernel.dirs, s.kernel.Visits F d ↔ Under '/' F d.path := fun d hd => by
    obtain ⟨r, hr, hrF⟩ := h.tracks.rooted.1 F hF
    exact ⟨fun h => h.2, fun hu => ⟨h.tree.exists_above hroots hd hr hrF hu, hu⟩⟩
  have hext := hscan.scan.extends h.tree h.tracks.bound fun d hd => (hS d hd).mp
  refine ⟨t, hrun, ⟨hscan.wf, hscan.scan.tree h.tree, h.tracks.scan h.tree hF hscan.scan hS, ?_, ?_⟩,
    by rw [hscan.scan.frame]⟩
  · rw [hscan.scan.dirs_eq, hscan.vars]
    exact h.rootDirs
  · refine AllAlong.transfer (R := Extends F (s.cache.look.added t.cache.look)) (Q := LeavesAlone F)
      (fun _ _ n h hn => h.apply (n := n) hn) (fun M M' n hE hn hP r hr hrem => ?_) hext
      (h.tracks.leavesAlone hF) (happ ▸ h.gone.2 : Gone roots s.kernel s.cache.look q)
    rw [hscan.scan.dirs_eq]
    refine hP r hr ?_
    cases n with
    | deleteSelf wd => exact (hE.eq_of_isSome hn.1).symm.trans hrem
    | _ => cases hrem

/-- The monitor deals with an entry that makes no scan, and does to the cache what the queue says. -/
theorem InStep.shift (h : InStep roots s (n :: q)) (hn : ∀ F, ¬n.WillScan s.cache.look F)
    (hwf : t.cache.WF) (hlook : t.cache.look = n.apply s.cache.look) (hkernel : t.kernel = s.kernel)
    (hroot : ∀ r, n.removes s.cache.look ≠ some r → some r ∈ s.rootDirPaths →
      some r ∈ t.rootDirPaths) : InStep roots t q := by
  refine ⟨hwf, hkernel ▸ h.tree, ?_, fun d hd hr => ?_, ?_⟩
  · rw [hlook, hkernel]
    exact h.tracks.shift hn
  · rw [hkernel] at hd
    exact hroot _ (fun hrem => h.gone.1 _ hr hrem d hd rfl) (h.rootDirs d hd hr)
  · rw [hlook, hkernel]
    exact h.gone.2

theorem zapRootDirPath_keeps (path : CString) :
    Post (fun _ => True) (fun t => t.cache = s.cache ∧ t.kernel = s.kernel ∧
      ∀ r, path ≠ r → some r ∈ s.rootDirPaths → some r ∈ t.rootDirPaths) (zapRootDirPath s path) := by
  rw [zapRootDirPath]
  split
  · trivial
  · next i hi =>
    refine Post.ite (fun _ => trivial) fun _ => Post.ok_iff.mpr ⟨rfl, rfl, fun r hr hmem => ?_⟩
    rw [findRootDirPath, List.findIdx?_eq_some_iff_getElem] at hi
    obtain ⟨hlt, heq, -⟩ := hi
    obtain ⟨j, hj⟩ := List.mem_iff_getElem?.mp hmem
    refine List.mem_iff_getElem?.mpr ⟨j, ?_⟩
    rw [List.getElem?_set_ne, hj]
    rintro rfl
    rw [List.getElem?_eq_getElem hlt, Option.some.injEq] at hj
    rw [hj, beq_iff_eq, Option.some.injEq] at heq
    exact hr heq.symm

/-- The number of bytes of an entry. -/
def Notice.size (n : Notice) : Nat := n.event.size + (n.second.map Event.size).getD 0

/-- What the monitor has done with an entry. -/
structure Served (roots : List CString) (s : State Fs) (n : Notice) (q : List Notice)
    (r : State Fs × Int) : Prop where
  inStep : InStep roots r.1 q
  queue : r.1.kernel.queue = s.kernel.queue
  evLen : r.2 = n.size

/-- The entries for a new directory. -/
theorem InStep.created (hroots : Roots roots) (h : InStep roots s (n :: q)) {p : CString}
    (hp : s.cache.look n.event.wd = some p)
    (hscans : n.scans s.cache.look = some (eventPath p n.event.name))
    (hmask : n.event.mask = IN_CREATE ||| IN_ISDIR ∨ n.event.mask = IN_MOVED_TO ||| IN_ISDIR)
    (hsize : n.size = n.event.size) (nextEv : Option Event) (firstTry : Bool) :
    Post (fun _ => True) (Served roots s n q)
      (processNextInotifyEvent (fsKernel N) s n.event nextEv firstTry) := by
  rw [process_create h.wf hp hmask, ← hsize]
  refine Post.map (Post.ite (fun hin => Post.ok_iff.mpr ⟨?_, rfl, rfl⟩) fun hin => ?_)
  · obtain ⟨x, hx⟩ := h.wf.pathnameInCache_iff.mp hin
    refine h.shift (fun F hF => ?_) h.wf (apply_of_scans hscans).symm rfl fun _ _ hr => hr
    obtain rfl := Option.some.inj (hscans.symm.trans hF.1)
    exact hF.2 x hx
  · have hF : n.WillScan s.cache.look (eventPath p n.event.name) :=
      ⟨hscans, fun x hx => hin (h.wf.pathnameInCache_iff.mpr ⟨x, hx⟩)⟩
    obtain ⟨u, hu, hstep, hqueue⟩ := h.watchSubtree (N := N) hroots hF
    rw [hu]
    exact ⟨hstep, hqueue, rfl⟩

theorem InStep.process (hroots : Roots roots) (h : InStep roots s (n :: q)) (nextEv : Option Event)
    (firstTry : Bool) : Post (fun _ => True) (Served roots s n q)
      (processNextInotifyEvent (fsKernel N) s n.event (n.second.or nextEv) firstTry) := by
  have hknown := h.tracks.known.1
  cases n with
  | create wd name =>
    obtain ⟨p, hp⟩ := Option.isSome_iff_exists.mp hknown
    exact h.created hroots hp (congrArg (Option.map _) hp) (.inl rfl) rfl ..
  | movedTo wd name cookie =>
    obtain ⟨p, hp⟩ := Option.isSome_iff_exists.mp hknown
    exact h.created hroots hp (congrArg (Option.map _) hp) (.inr rfl) rfl ..
  | movedFrom => cases hknown
  | renamed wd name wd' name' cookie =>
    obtain ⟨p, hp⟩ := Option.isSome_iff_exists.mp hknown.1
    obtain ⟨p', hp'⟩ := Option.isSome_iff_exists.mp hknown.2
    rw [second, Option.some_or, process_renamed (renamed wd name wd' name' cookie).event
      ⟨wd', IN_MOVED_TO ||| IN_ISDIR, cookie, nameLen name', name'⟩ h.wf hp hp' rfl rfl rfl]
    refine Post.ok_iff.mpr ⟨?_, rfl, rfl⟩
    refine h.shift (not_willScan rfl) (h.wf.rewriteCachedPaths ..) ?_ rfl fun _ _ hr => hr
    rw [h.wf.look_rewriteCachedPaths]
    simp only [Notice.apply, hp, hp']
    rfl
  | deleteSelf wd =>
    obtain ⟨p, hp⟩ := Option.isSome_iff_exists.mp hknown
    obtain ⟨j, hj, hrun⟩ := process_deleteSelf (N := N) (deleteSelf wd).event h.wf hp rfl
    have hzap : Post (fun _ => True) (fun t => t.cache = s.cache ∧ t.kernel = s.kernel ∧
        ∀ r, p ≠ r → some r ∈ s.rootDirPaths → some r ∈ t.rootDirPaths)
        (if isRootDirPath s p then zapRootDirPath s p else .ok s) :=
      Post.ite (fun _ => zapRootDirPath_keeps p) fun _ => Post.ok_iff.mpr ⟨rfl, rfl, fun _ _ hr => hr⟩
    rw [hrun]
    refine Post.map (hzap.mono (fun _ h => h) fun u hu => ?_)
    obtain ⟨hcache, hkernel, hroot⟩ := hu
    refine ⟨?_, ?_, rfl⟩
    · refine h.shift (not_willScan rfl) (hcache ▸ h.wf.markCacheSlotEmpty j) ?_ hkernel fun r hr =>
        hroot r fun heq => hr (heq ▸ hp)
      have hwd : wd ≠ -1 := (h.wf.look_iff.mp hp).1
      change (u.cache.markCacheSlotEmpty j).look = _
      rw [hcache, h.wf.look_markCacheSlotEmpty hj hwd]
      rfl
    · rw [hkernel]
  | ignored wd =>
    rw [process_ignored rfl]
    exact Post.ok_iff.mpr ⟨h.shift (not_willScan rfl) h.wf rfl rfl fun _ _ hr => hr, rfl, rfl⟩

theorem InStep.monitor (hroots : Roots roots) (h : InStep roots s s.kernel.queue)
    {more firstTry : Bool} (hm : monitor N s more firstTry = some t) :
    InStep roots t t.kernel.queue := by
  rw [InotifyDtree.monitor] at hm
  split at hm
  · cases hm
  · next n q hq =>
    rw [hq] at h
    obtain ⟨⟨u, evLen⟩, hrun, rfl⟩ := Option.map_eq_some_iff.mp hm
    obtain ⟨hstep, hqueue, rfl⟩ := (h.process hroots ..).of_toOption hrun
    have htail : u.kernel.queue.tail = q := by
      change u.kernel.queue = s.kernel.queue at hqueue
      rw [hqueue, hq, List.tail_cons]
    have hinv := hstep.setQueue u.kernel.queue.tail
    rw [← htail] at hinv
    cases hsecond : n.second with
    | none =>
      simp only [Notice.size, hsecond, Option.map_none, Option.getD_none, Nat.add_zero,
        ofResult_single, List.drop_one]
      exact hinv
    | some ev =>
      simp only [Notice.size, hsecond, Option.map_some, Option.getD_some, Option.some_or,
        ofResult_pair, Option.isSome_some, if_true, List.drop_one]
      exact hinv

end Tlpi.InotifyDtree
