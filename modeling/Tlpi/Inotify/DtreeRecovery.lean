import Tlpi.Inotify.DtreeRuns

/-!
# Recovery from lost events

When events are lost, or a rename comes between an event and the scan for it, the cache may
disagree with the file system in any way. What is left then (`Secure`) is that no root that still
exists has been zapped, and this is all that a rebuild needs: after an `IN_Q_OVERFLOW`, or an event
for a watch that is not in the cache, the monitor is in step again.
-/

namespace Tlpi.InotifyDtree

open Notice

variable {roots : List CString} {N : Nftw} {s t : State Fs} {M : View} {fs fs' : Fs}

/-! ### What is left when events are lost -/

/-- The watch descriptors of an entry of the queue are set. -/
def Notice.Real (n : Notice) : Prop := n.event.wd ≠ -1 ∧ ∀ ev ∈ n.second, ev.wd ≠ -1

/-- An entry of the cache for a root that exists belongs to its watch, and the queue reports the end
of no watch that exists. -/
structure Live (roots : List CString) (M : View) (fs : Fs) : Prop where
  root : ∀ d ∈ fs.dirs, d.path ∈ roots → ∀ wd, M wd = some d.path →
    ∃ m ∈ fs.marks, m.ino = d.ino ∧ m.wd = wd
  wd_inj : ∀ m ∈ fs.marks, ∀ m' ∈ fs.marks, m.wd = m'.wd → m = m'
  le : ∀ m ∈ fs.marks, m.wd ≤ fs.lastWd
  dead : ∀ wd, deleteSelf wd ∈ fs.queue → wd ≤ fs.lastWd ∧ ∀ m ∈ fs.marks, m.wd ≠ wd
  real : ∀ n ∈ fs.queue, n.Real

structure Secure (roots : List CString) (s : State Fs) : Prop where
  wf : s.cache.WF
  tree : Tree roots s.kernel
  live : Live roots s.cache.look s.kernel
  rootDirs : ∀ d ∈ s.kernel.dirs, d.path ∈ roots → some d.path ∈ s.rootDirPaths
  under : ∀ wd p, s.cache.look wd = some p → ∃ r ∈ roots, Under '/' r p

/-! ### The operations -/

theorem Live.mono (h : Live roots M fs) (hdirs : ∀ d ∈ fs'.dirs, d.path ∈ roots → d ∈ fs.dirs)
    (hmarks : fs'.marks = fs.marks) (hlast : fs'.lastWd = fs.lastWd)
    (hqueue : ∀ n ∈ fs'.queue, n ∈ fs.queue ∨ n.Real ∧ ∀ wd, n ≠ deleteSelf wd) :
    Live roots M fs' where
  root d hd hr wd hwd := hmarks ▸ h.root d (hdirs d hd hr) hr wd hwd
  wd_inj := hmarks ▸ h.wd_inj
  le := by
    rw [hmarks, hlast]
    exact h.le
  dead wd hwd := by
    rw [hmarks, hlast]
    exact h.dead wd ((hqueue _ hwd).resolve_right fun hn => hn.2 wd rfl)
  real n hn := (hqueue n hn).elim (h.real n) And.left

theorem Mark.wd_ne (m : Mark) : m.wd ≠ -1 := by
  have := m.one_le
  omega

theorem real_moveNotices {name name' : CString} {cookie : BitVec 32} (m m' : Option Mark) :
    ∀ n ∈ Fs.moveNotices name name' cookie m m', n.Real ∧ ∀ wd, n ≠ deleteSelf wd := by
  intro n hn
  cases m <;> cases m' <;>
    simp only [Fs.moveNotices, List.mem_singleton, List.not_mem_nil] at hn <;>
    subst hn <;> simp [Notice.Real, event, second, Mark.wd_ne]

theorem mem_evict_marks {ino : Nat} {m : Mark} :
    m ∈ (fs.evict ino).marks ↔ m ∈ fs.marks ∧ m.ino ≠ ino := by
  simp [Fs.evict]

theorem Live.evict (h : Live roots M fs) (ino : Nat) : Live roots M (fs.evict ino) := by
  refine ⟨fun e he hr wd hwd => ?_, fun m hm m' hm' => ?_, fun m hm => ?_, fun wd hwd => ?_,
    fun n hn => ?_⟩
  · obtain ⟨he, hino⟩ := mem_evict.mp he
    obtain ⟨m, hm, hme, hmwd⟩ := h.root e he hr wd hwd
    exact ⟨m, mem_evict_marks.mpr ⟨hm, hme ▸ hino⟩, hme, hmwd⟩
  · exact h.wd_inj m (mem_evict_marks.mp hm).1 m' (mem_evict_marks.mp hm').1
  · exact h.le m (mem_evict_marks.mp hm).1
  · rcases List.mem_append.mp hwd with hwd | hwd
    · obtain ⟨hle, hdead⟩ := h.dead wd hwd
      exact ⟨hle, fun m hm => hdead m (mem_evict_marks.mp hm).1⟩
    · cases hmark : fs.markOf ino with
      | none => simp [hmark] at hwd
      | some m =>
        obtain rfl : wd = m.wd := by simpa [hmark] using hwd
        obtain ⟨hm, hino⟩ := markOf_mem hmark
        refine ⟨h.le m hm, fun m' hm' heq => ?_⟩
        obtain ⟨hm', hne⟩ := mem_evict_marks.mp hm'
        exact hne (h.wd_inj m' hm' m hm heq ▸ hino)
  · refine (List.mem_append.mp hn).elim (h.real n) fun hn => ?_
    cases hmark : fs.markOf ino with
    | none => simp [hmark] at hn
    | some m =>
      simp only [hmark, Option.map_some, Option.getD_some, List.mem_cons, List.not_mem_nil,
        or_false] at hn
      rcases hn with rfl | rfl <;> simp [Notice.Real, event, second, m.wd_ne]

theorem Secure.mkdir (hroots : Roots roots) (h : Secure roots s) {parent name : CString}
    (hm : s.kernel.mkdir parent name = some fs')
    (hlen : (parent ++ '/' :: name).length < PATH_MAX) :
    Secure roots { s with kernel := fs' } := by
  have htree := h.tree.mkdir hm hlen
  obtain ⟨p, hp, rfl, -, -, rfl⟩ := mkdir_cases hm
  have hdirs : ∀ d ∈ s.kernel.dirs ++ [⟨s.kernel.nextIno, p.path ++ '/' :: name⟩],
      d.path ∈ roots → d ∈ s.kernel.dirs := fun d hd hr => by
    refine (List.mem_append.mp hd).resolve_right fun hd => ?_
    rw [List.mem_singleton.mp hd] at hr
    exact h.tree.not_under_root hroots hp hr (.refl ..)
  refine ⟨h.wf, htree, h.live.mono hdirs rfl rfl fun n hn => ?_,
    fun d hd hr => h.rootDirs d (hdirs d hd hr) hr, h.under⟩
  refine (List.mem_append.mp hn).imp_right fun hn => ?_
  obtain ⟨m, -, rfl⟩ := Option.map_eq_some_iff.mp (Option.mem_toList.mp hn)
  simp [Notice.Real, event, second, m.wd_ne]

theorem Secure.rmdir (h : Secure roots s) {path : CString} (hm : s.kernel.rmdir path = some fs') :
    Secure roots { s with kernel := fs' } := by
  have htree := h.tree.rmdir hm
  obtain ⟨d, -, rfl, -, rfl⟩ := rmdir_cases hm
  exact ⟨h.wf, htree, h.live.evict d.ino, fun e he hr => h.rootDirs e (mem_evict.mp he).1 hr,
    h.under⟩

theorem Secure.rename (hroots : Roots roots) (h : Secure roots s)
    {parent name parent' name' : CString}
    (hm : s.kernel.rename parent name parent' name' = some fs')
    (hlen : parent ++ '/' :: name = parent' ++ '/' :: name' ∨
      ∀ d ∈ s.kernel.dirs, Under '/' (parent ++ '/' :: name) d.path →
        (d.move (parent ++ '/' :: name) (parent' ++ '/' :: name')).path.length < PATH_MAX) :
    Secure roots { s with kernel := fs' } := by
  obtain ⟨-, rfl⟩ | ⟨p, hp, rfl, p', hp', rfl, hold, hslash, hunder, hempty, rfl⟩ := rename_cases hm
  · exact h
  have hlen := hlen.resolve_left fun heq => hunder (heq ▸ .refl ..)
  have htree := h.tree.rename (h.tree.renameIn hroots hp hp' hslash hunder hempty) hlen
  have hdirs : ∀ e ∈ (s.kernel.move p p' name name').dirs, e.path ∈ roots → e ∈ s.kernel.dirs :=
    fun e he her => h.tree.mem_of_mem_move hroots hp' he her
  have hlive : Live roots s.cache.look (s.kernel.move p p' name name') := by
    exact h.live.mono hdirs rfl rfl fun n hn =>
      (List.mem_append.mp hn).imp_right (real_moveNotices _ _ n)
  cases hat : s.kernel.dirAt (p'.path ++ '/' :: name') with
  | none =>
    rw [hat] at htree
    exact ⟨h.wf, htree, hlive, fun d hd hr => h.rootDirs d (hdirs d hd hr) hr, h.under⟩
  | some t =>
    rw [hat] at htree
    exact ⟨h.wf, htree, hlive.evict t.ino, fun d hd hr =>
      h.rootDirs d (hdirs d (mem_evict.mp hd).1 hr) hr, h.under⟩

/-! ### The monitor -/

/-- The next descriptor has not been used. -/
theorem Live.addMark (h : Live roots M fs) (ino : Nat) : Live roots M { fs with
    marks := fs.marks ++ [⟨fs.lastWd + 1, ino, fs.one_le_lastWd_succ⟩]
    lastWd := fs.lastWd + 1 } := by
  generalize hlast : (⟨fs.lastWd + 1, ino, fs.one_le_lastWd_succ⟩ : Mark) = l
  have hwd : l.wd = fs.lastWd + 1 := hlast ▸ rfl
  have hmem : ∀ {m}, m ∈ fs.marks ++ [l] ↔ m ∈ fs.marks ∨ m = l := by simp
  have hne : ∀ m ∈ fs.marks, m.wd ≠ l.wd := fun m hm heq => by
    have := h.le m hm
    omega
  refine ⟨fun d hd hr wd hlook => ?_, fun m hm m' hm' heq => ?_, fun m hm => ?_, fun wd hdel => ?_,
    h.real⟩
  · obtain ⟨m, hm, hrest⟩ := h.root d hd hr wd hlook
    exact ⟨m, hmem.mpr (.inl hm), hrest⟩
  · rcases hmem.mp hm with hl | rfl <;> rcases hmem.mp hm' with hl' | rfl
    · exact h.wd_inj m hl m' hl' heq
    · exact absurd heq (hne m hl)
    · exact absurd heq.symm (hne m' hl')
    · rfl
  · change m.wd ≤ ((fs.lastWd + 1 : Nat) : Int)
    rcases hmem.mp hm with hl | rfl
    · have := h.le m hl
      omega
    · omega
  · obtain ⟨hle, hdead⟩ := h.dead wd hdel
    refine ⟨?_, fun m hm => ?_⟩
    · change wd ≤ ((fs.lastWd + 1 : Nat) : Int)
      omega
    · rcases hmem.mp hm with hl | rfl
      · exact hdead m hl
      · omega

/-- A directory whose watch is not in the cache gets an entry. -/
theorem Secure.addWatch (hroots : Roots roots) (h : Secure roots s) {d : Dir}
    (hd : d ∈ s.kernel.dirs) {m : Mark} (hm : m ∈ s.kernel.marks) (hmd : m.ino = d.ino)
    (hnew : s.cache.findWatch m.wd = none) :
    Secure roots { s with cache := s.cache.addWatchToCache m.wd d.path } := by
  have hne := h.tree.path_ne_nil hroots hd
  have hlook := h.wf.look_addWatchToCache m.one_le hne (h.tree.path_lt d hd) hnew
  refine ⟨h.wf.addWatchToCache m.one_le hne hnew, h.tree,
    ⟨fun e he hr wd hwd => ?_, h.live.wd_inj, h.live.le, h.live.dead,
      h.live.real⟩, h.rootDirs, fun wd p hp => ?_⟩
  · rw [hlook, Function.update_apply] at hwd
    split at hwd
    · next heq =>
      rw [h.tree.path_inj e he d hd (Option.some.inj hwd).symm]
      exact ⟨m, hm, hmd, heq.symm⟩
    · exact h.live.root e he hr wd hwd
  · simp only [hlook, Function.update_apply] at hp
    split at hp
    · obtain rfl := Option.some.inj hp
      obtain ⟨e, -, hr, hu⟩ := h.tree.exists_root hd
      exact ⟨e.path, hr, hu⟩
    · exact h.under wd p hp

theorem Secure.traverseTree (hroots : Roots roots) (h : Secure roots s) {d : Dir}
    (hd : d ∈ s.kernel.dirs) : Post (fun _ => True)
      (fun t => Secure roots t ∧ t.kernel.dirs = s.kernel.dirs)
      (traverseTree (fsKernel N) s d.path true) := by
  have hne := h.tree.path_ne_nil hroots hd
  have hlt := h.tree.path_lt d hd
  simp only [InotifyDtree.traverseTree, Kernel.inotifyAddWatch, if_neg hne,
    if_neg (Nat.not_le.mpr hlt), fsKernel, h.tree.dirAt_path hd, Bool.not_true, Bool.false_eq_true,
    if_false]
  cases hmark : s.kernel.markOf d.ino with
  | some m =>
    obtain ⟨hm, hino⟩ := markOf_mem hmark
    refine Post.ite (fun _ => ⟨h, rfl⟩) fun hnew => ⟨?_, rfl⟩
    exact h.addWatch hroots hd hm hino (by simpa using hnew)
  | none =>
    have hadd : Secure roots { s with kernel := { s.kernel with
        marks := s.kernel.marks ++ [⟨s.kernel.lastWd + 1, d.ino, s.kernel.one_le_lastWd_succ⟩]
        lastWd := s.kernel.lastWd + 1 } } :=
      ⟨h.wf, ⟨h.tree.ino_inj, h.tree.path_inj, h.tree.ino_lt, h.tree.path_lt, h.tree.closed⟩,
        h.live.addMark d.ino, h.rootDirs, h.under⟩
    refine Post.ite (fun _ => ⟨hadd, rfl⟩) fun hnew => ⟨?_, rfl⟩
    exact hadd.addWatch hroots hd (List.mem_append_right _ (List.mem_singleton_self _)) rfl
      (by simpa using hnew)

theorem Secure.watchSubtree (hroots : Roots roots) (h : Secure roots s) (path : CString) :
    Post (fun _ => True) (Secure roots) (watchSubtree (fsKernel N) s path) := by
  have hloop : Post (fun _ => True) (fun t => Secure roots t ∧ t.kernel.dirs = s.kernel.dirs)
      (InotifyDtree.watchSubtree (fsKernel N) s path) := by
    refine Post.foldlM ⟨h, rfl⟩ fun t b ht hb => ?_
    have hb : ∃ d ∈ s.kernel.dirs, b = (d.path, true) := by
      simp only [fsKernel] at hb
      split at hb
      · obtain ⟨d, hd, rfl⟩ := List.mem_map.mp hb
        exact ⟨d, ((N.mem_visit ..).mp hd).1, rfl⟩
      · cases hb
    obtain ⟨d, hd, rfl⟩ := hb
    exact (ht.1.traverseTree hroots (ht.2 ▸ hd)).mono (fun _ h => h) fun u hu =>
      ⟨hu.1, hu.2.trans ht.2⟩
  exact hloop.mono (fun _ h => h) fun _ ht => ht.1

/-- Entries of the cache may be dropped, with or without their watches. -/
theorem Secure.drop (h : Secure roots s) {c : Cache} (hwf : c.WF)
    (hlook : ∀ wd p, c.look wd = some p → s.cache.look wd = some p) :
    Secure roots { s with cache := c } where
  wf := hwf
  tree := h.tree
  live := ⟨fun d hd hr wd hwd => h.live.root d hd hr wd (hlook _ _ hwd), h.live.wd_inj, h.live.le,
    h.live.dead, h.live.real⟩
  rootDirs := h.rootDirs
  under wd p hp := h.under wd p (hlook _ _ hp)

theorem look_markCacheSlotEmpty_some {c : Cache} (hwf : c.WF) {j : Nat} {w : Watch}
    (hw : c.wlCache[j]? = some w) (hwd : w.wd ≠ -1) {wd : Int} {p : CString}
    (hp : (c.markCacheSlotEmpty j).look wd = some p) : wd ≠ w.wd ∧ c.look wd = some p := by
  rw [hwf.look_markCacheSlotEmpty hw hwd, Function.update_apply] at hp
  split at hp
  · cases hp
  · next hne => exact ⟨hne, hp⟩

/-- A watch is removed together with its entry. -/
theorem Secure.rmWatch (h : Secure roots s) {j : Nat} {w : Watch}
    (hw : s.cache.wlCache[j]? = some w) (hwd : w.wd ≠ -1) {k : Fs}
    (hk : (fsKernel N).rmWatch s.kernel s.inotifyFd w.wd = some k) :
    Secure roots { s with
      kernel := k
      cache := s.cache.markCacheSlotEmpty j } := by
  simp only [fsKernel, Option.ite_none_right_eq_some, Option.some.injEq] at hk
  obtain ⟨-, rfl⟩ := hk
  have hmem : ∀ {m : Mark}, m ∈ s.kernel.marks.filter (·.wd != w.wd) ↔
      m ∈ s.kernel.marks ∧ m.wd ≠ w.wd := by simp
  refine ⟨h.wf.markCacheSlotEmpty j,
    ⟨h.tree.ino_inj, h.tree.path_inj, h.tree.ino_lt, h.tree.path_lt, h.tree.closed⟩,
    ⟨fun d hd hr wd hlook => ?_, fun m hm m' hm' => ?_, fun m hm => ?_, fun wd hdel => ?_,
      fun n hn => ?_⟩, h.rootDirs,
    fun wd p hp => h.under wd p (look_markCacheSlotEmpty_some h.wf hw hwd hp).2⟩
  · obtain ⟨hne, hlook⟩ := look_markCacheSlotEmpty_some h.wf hw hwd hlook
    obtain ⟨m, hm, hmd, rfl⟩ := h.live.root d hd hr wd hlook
    exact ⟨m, hmem.mpr ⟨hm, hne⟩, hmd, rfl⟩
  · exact h.live.wd_inj m (hmem.mp hm).1 m' (hmem.mp hm').1
  · exact h.live.le m (hmem.mp hm).1
  · have hdel : deleteSelf wd ∈ s.kernel.queue :=
      (List.mem_append.mp hdel).resolve_right fun h => by simp at h
    obtain ⟨hle, hdead⟩ := h.live.dead wd hdel
    exact ⟨hle, fun m hm => hdead m (hmem.mp hm).1⟩
  · refine (List.mem_append.mp hn).elim (h.live.real n) fun hn => ?_
    obtain rfl := List.mem_singleton.mp hn
    simp [Notice.Real, event, second, hwd]

theorem Secure.zapSlots (h : Secure roots s) (pn : CString) (js : List Nat) (cnt : Int) :
    Secure roots (zapSlots (fsKernel N) pn js cnt s).2 := by
  induction js generalizing s cnt with
  | nil => exact h
  | cons j js ih =>
    rw [InotifyDtree.zapSlots]
    split
    · exact ih h cnt
    · next w hw =>
      split
      · next hmatch =>
        split
        · exact ⟨h.wf, h.tree, h.live, h.rootDirs, h.under⟩
        · next k hk => exact ih (h.rmWatch hw (by omega) hk) (cnt + 1)
      · exact ih h cnt

/-! ### Renames in the cache -/

/-- The path is strictly below `r`. -/
def Below (r path : CString) : Prop := ∃ w, path = r ++ '/' :: w

theorem Below.take {r path : CString} (h : Below r path) {k : Nat} (hk : r.length < k) :
    Below r (path.take k) := by
  obtain ⟨w, rfl⟩ := h
  obtain ⟨k, rfl⟩ := Nat.exists_eq_add_of_lt hk
  refine ⟨w.take k, ?_⟩
  rw [List.take_append, List.take_of_length_le (by omega),
    show r.length + k + 1 - r.length = k + 1 by omega, List.take_succ_cons]

theorem Below.append {r path : CString} (h : Below r path) (t : CString) : Below r (path ++ t) := by
  obtain ⟨w, rfl⟩ := h
  exact ⟨w ++ t, by simp⟩

theorem Below.of_under {r path : CString} (h : Under '/' r path) (name : CString) :
    Below r (path ++ '/' :: name) := by
  obtain ⟨t, rfl, rfl | ⟨u, rfl⟩⟩ := h
  · exact ⟨name, by simp⟩
  · exact ⟨u ++ '/' :: name, by simp⟩

theorem Below.notMem_roots (hroots : Roots roots) {r path : CString} (hr : r ∈ roots)
    (h : Below r path) : path ∉ roots := fun hmem => by
  obtain ⟨w, rfl⟩ := h
  have heq := hroots.eq_of_under r hr _ hmem (.child ..)
  simpa using congrArg List.length heq

/-- However a pathname is cut, it does not become that of a root. -/
theorem below_rewritePath {old r p' name' path : CString} (hroom : r.length + 1 < PATH_MAX)
    (hu : Under '/' r p') (hold : isUnder old path = true) :
    Below r (rewritePath old (snprintf PATH_MAX (p' ++ '/' :: name')) path) := by
  rw [rewritePath, if_pos hold, snprintf, strncpy, snprintf]
  exact ((((Below.of_under hu name').take (by omega)).append _).take (by omega)).take (by omega)

theorem Secure.rewriteCachedPaths (hroots : Roots roots)
    (hroom : ∀ r ∈ roots, r.length + 1 < PATH_MAX) (h : Secure roots s) (p name : CString)
    {p' : CString} (name' : CString) {wd' : Int} (hp' : s.cache.look wd' = some p') :
    Secure roots { s with cache := s.cache.rewriteCachedPaths p name p' name' } := by
  obtain ⟨r, hr, hu⟩ := h.under wd' p' hp'
  have hlook (wd : Int) (q : CString)
      (hq : (s.cache.rewriteCachedPaths p name p' name').look wd = some q) :
      Below r q ∨ s.cache.look wd = some q := by
    rw [h.wf.look_rewriteCachedPaths p name p' name', Option.map_eq_some_iff] at hq
    obtain ⟨q, hq, rfl⟩ := hq
    cases hold : isUnder (snprintf PATH_MAX (p ++ '/' :: name)) q with
    | true => exact .inl (below_rewritePath (hroom r hr) hu hold)
    | false =>
      rw [rewritePath, if_neg (by simp [hold])]
      exact .inr hq
  refine ⟨h.wf.rewriteCachedPaths .., h.tree, ⟨fun d hd hdr wd hwd => ?_, h.live.wd_inj, h.live.le,
    h.live.dead, h.live.real⟩, h.rootDirs, fun wd q hq => ?_⟩
  · refine h.live.root d hd hdr wd ((hlook wd _ hwd).resolve_left fun hb => ?_)
    exact hb.notMem_roots hroots hr hdr
  · rcases hlook wd q hq with ⟨w, rfl⟩ | hq
    · exact ⟨r, hr, .child ..⟩
    · exact h.under wd q hq

/-! ### A rebuild -/

/-- A rebuild gets the monitor in step, whatever the cache, the watches and the queue were. -/
theorem Secure.reinitialize (hroots : Roots roots) (h : Secure roots s) (fd : Int) : ∃ t,
    reinitialize (fsKernel N) s fd = .ok t ∧ t.kernel.queue = [] ∧ InStep roots t [] := by
  obtain ⟨t, ht, hroot, hwf, hqueue, hdirs, htree, htracks⟩ :=
    rebuild_scan (N := N) hroots h.tree h.rootDirs fd
  refine ⟨t, ht, hqueue, hwf, htree, htracks, fun d hd hr => ?_, trivial⟩
  rw [hroot]
  exact h.rootDirs d (hdirs ▸ hd) hr

theorem InStep.secure (h : InStep roots s []) (hqueue : s.kernel.queue = []) : Secure roots s := by
  have htruth (wd : Int) (p : CString) : s.cache.look wd = some p ↔ s.kernel.Watching wd p :=
    h.tracks.truth wd p
  refine ⟨h.wf, h.tree, ⟨fun d hd _ wd hwd => ?_, h.tracks.marks.wd_inj, h.tracks.marks.le,
    fun wd hdel => ?_, fun n hn => ?_⟩, h.rootDirs, fun wd p hp => ?_⟩
  · obtain ⟨e, he, hed, m, hm, hme, hwd⟩ := (htruth wd d.path).mp hwd
    exact ⟨m, hm, h.tree.path_inj e he d hd hed ▸ hme, hwd⟩
  · simp [hqueue] at hdel
  · simp [hqueue] at hn
  · obtain ⟨e, he, rfl, -⟩ := (htruth wd p).mp hp
    obtain ⟨f, -, hr, hu⟩ := h.tree.exists_root he
    exact ⟨f.path, hr, hu⟩

/-! ### Events -/

/-- The slot is not set, or it has the entry for the watch of the event. -/
def OwnSlot (s : State Fs) (ev : Event) (slot : Option Nat) : Prop :=
  ∀ j, slot = some j → ∃ p, s.cache.wlCache[j]? = some ⟨ev.wd, p⟩ ∧ ev.wd ≠ -1

variable {ev : Event} {nextEv : Option Event} {firstTry : Bool} {slot : Option Nat}

theorem Secure.slotPath (h : Secure roots s) (hslot : OwnSlot s ev slot) :
    Post (fun _ => True) (fun p => s.cache.look ev.wd = some p) (slotPath s slot) := by
  cases slot with
  | none => trivial
  | some j =>
    obtain ⟨p, hj, hwd⟩ := hslot j rfl
    rw [slotPath_eq hj]
    exact h.wf.look_iff.mpr ⟨hwd, List.mem_of_getElem? hj⟩

theorem Secure.clearSlot (h : Secure roots s) (hslot : OwnSlot s ev slot) :
    Post (fun _ => True) (Secure roots) (clearSlot s slot) := by
  cases slot with
  | none => trivial
  | some j =>
    obtain ⟨p, hj, hwd⟩ := hslot j rfl
    refine Post.ite (fun _ => ?_) fun _ => trivial
    exact h.drop (h.wf.markCacheSlotEmpty j) fun wd q hq =>
      (look_markCacheSlotEmpty_some h.wf hj hwd hq).2

theorem Secure.finishEvent (h : Secure roots s) (evLen : Nat) :
    Post (fun _ => True) (fun r => Secure roots r.1) (finishEvent (fsKernel N) s evLen) := by
  rw [finishEvent_fs]
  exact h

theorem Secure.reinitialize_post (hroots : Roots roots) (h : Secure roots s) (fd : Int) :
    Post (fun _ => True) (Secure roots) (InotifyDtree.reinitialize (fsKernel N) s fd) := by
  obtain ⟨t, ht, hqueue, hstep⟩ := h.reinitialize (N := N) hroots fd
  rw [ht]
  exact hstep.secure hqueue

theorem Secure.rebuild (hroots : Roots roots) (h : Secure roots s) :
    Post (fun _ => True) (fun r => Secure roots r.1) (rebuild (fsKernel N) s) :=
  Post.bind (h.reinitialize_post hroots _) fun _ ht => ht

/-- A root is zapped when it is gone. -/
theorem Secure.zapRootDirPath (h : Secure roots s) {p : CString}
    (hgone : ∀ d ∈ s.kernel.dirs, d.path ∈ roots → d.path ≠ p) :
    Post (fun _ => True) (fun t => Secure roots t ∧ t.cache = s.cache) (zapRootDirPath s p) := by
  refine (zapRootDirPath_keeps p).mono (fun _ h => h) fun t ⟨hcache, hkernel, hkeep⟩ => ⟨?_, hcache⟩
  refine ⟨hcache ▸ h.wf, hkernel ▸ h.tree, ?_, fun d hd hr => ?_, hcache ▸ h.under⟩
  · rw [hcache, hkernel]
    exact h.live
  · rw [hkernel] at hd
    exact hkeep _ (hgone d hd hr).symm (h.rootDirs d hd hr)

theorem Secure.processMovedFrom (hroots : Roots roots)
    (hroom : ∀ r ∈ roots, r.length + 1 < PATH_MAX) (h : Secure roots s) (hslot : OwnSlot s ev slot)
    (hnext : ∀ ev ∈ nextEv, ev.wd ≠ -1) :
    Post (fun _ => True) (fun r => Secure roots r.1)
      (processMovedFrom (fsKernel N) s slot ev nextEv firstTry) := by
  rw [InotifyDtree.processMovedFrom]
  split
  · next nextEv' hmatch =>
    have hwd := hnext nextEv' (Option.filter_eq_some_iff.mp hmatch).1
    refine Post.bind ((findWatchChecked_spec nextEv'.wd).mono (fun _ _ => trivial) fun _ h => h)
      fun slot' hfind => ?_
    cases slot' with
    | none => exact h.rebuild hroots
    | some j =>
      obtain ⟨w, hj, hw⟩ := h.wf.findWatch_some hfind
      have hslot' : OwnSlot s nextEv' (some j) := fun i hi => by
        cases hi
        exact ⟨w.path, hw ▸ hj, hwd⟩
      refine Post.bind (h.slotPath hslot) fun p _ => Post.bind (h.slotPath hslot') fun p' hp' => ?_
      exact (h.rewriteCachedPaths hroots hroom p ev.name nextEv'.name hp').finishEvent _
  · refine Post.ite (fun _ => Post.bind (h.slotPath hslot) fun p _ => ?_) fun _ => h
    have hzap := h.zapSlots (N := N) (snprintf (PATH_MAX + NAME_MAX) (p ++ '/' :: ev.name))
      (List.range s.cache.cacheSize) 0
    exact Post.ite (fun _ => hzap.rebuild hroots) fun _ => hzap.finishEvent _

theorem Secure.processEvent (hroots : Roots roots)
    (hroom : ∀ r ∈ roots, r.length + 1 < PATH_MAX) (h : Secure roots s) (hslot : OwnSlot s ev slot)
    (hnext : ∀ ev ∈ nextEv, ev.wd ≠ -1) (hmove : ev.has IN_MOVE_SELF = false)
    (hdead : ev.has IN_DELETE_SELF = true → ∀ m ∈ s.kernel.marks, m.wd ≠ ev.wd) :
    Post (fun _ => True) (fun r => Secure roots r.1)
      (processEvent (fsKernel N) s slot ev nextEv firstTry) := by
  rw [InotifyDtree.processEvent]
  refine Post.ite (fun _ => Post.bind (h.slotPath hslot) fun p _ => ?_) fun _ => ?_
  · refine Post.bind (Q := Secure roots) (Post.ite (fun _ => h) fun _ => h.watchSubtree hroots _)
      fun t ht => ht.finishEvent _
  refine Post.ite (fun hdel => Post.bind (h.slotPath hslot) fun p hp => ?_) fun _ => ?_
  · have hgone : ∀ d ∈ s.kernel.dirs, d.path ∈ roots → d.path ≠ p := by
      rintro d hd hr rfl
      obtain ⟨m, hm, -, hwd⟩ := h.live.root d hd hr _ hp
      exact hdead hdel m hm hwd
    refine Post.bind (Q := fun t => Secure roots t ∧ t.cache = s.cache)
      (Post.ite (fun _ => h.zapRootDirPath hgone) fun _ => ⟨h, rfl⟩) fun t ht => ?_
    have hslot' : OwnSlot t ev slot := fun j hj => by
      rw [ht.2]
      exact hslot j hj
    exact Post.bind (ht.1.clearSlot hslot') fun u hu => hu.finishEvent _
  refine Post.ite (fun _ => h.processMovedFrom hroots hroom hslot hnext) fun _ => ?_
  refine Post.ite (fun _ => Post.bind (h.reinitialize_post hroots _) fun t ht => ht.finishEvent _)
    fun _ => ?_
  refine Post.ite (fun _ => Post.bind (h.clearSlot hslot) fun t ht => ht.finishEvent _) fun _ => ?_
  rw [if_neg (by simp [hmove])]
  exact h.finishEvent _

theorem Secure.processNextInotifyEvent (hroots : Roots roots)
    (hroom : ∀ r ∈ roots, r.length + 1 < PATH_MAX) (h : Secure roots s)
    (hnext : ∀ ev ∈ nextEv, ev.wd ≠ -1) (hmove : ev.has IN_MOVE_SELF = false)
    (hdead : ev.has IN_DELETE_SELF = true → ∀ m ∈ s.kernel.marks, m.wd ≠ ev.wd) :
    Post (fun _ => True) (fun r => Secure roots r.1)
      (processNextInotifyEvent (fsKernel N) s ev nextEv firstTry) := by
  rw [InotifyDtree.processNextInotifyEvent]
  refine Post.ite (fun hwd => ?_) fun _ =>
    h.processEvent hroots hroom (fun j hj => by cases hj) hnext hmove hdead
  refine Post.bind ((findWatchChecked_spec ev.wd).mono (fun _ _ => trivial) fun _ h => h)
    fun slot hfind => ?_
  cases slot with
  | none => exact h.rebuild hroots
  | some j =>
    obtain ⟨w, hj, hw⟩ := h.wf.findWatch_some hfind
    refine h.processEvent hroots hroom (fun i hi => ?_) hnext hmove hdead
    cases hi
    exact ⟨w.path, hw ▸ hj, hwd.1⟩

theorem Notice.has_moveSelf (n : Notice) : n.event.has IN_MOVE_SELF = false := by
  cases n <;> simp only [Event.has, event] <;> decide

theorem Notice.eq_of_has_deleteSelf {n : Notice} (h : n.event.has IN_DELETE_SELF = true) :
    n = deleteSelf n.event.wd := by
  cases n with
  | deleteSelf wd => rfl
  | _ =>
    simp only [Event.has, event] at h
    exact absurd h (by decide)

theorem Secure.setQueue (h : Secure roots s) {q : List Notice}
    (hq : ∀ n ∈ q, n ∈ s.kernel.queue ∨ n.Real ∧ ∀ wd, n ≠ deleteSelf wd) :
    Secure roots { s with kernel := { s.kernel with queue := q } } where
  wf := h.wf
  tree := ⟨h.tree.ino_inj, h.tree.path_inj, h.tree.ino_lt, h.tree.path_lt, h.tree.closed⟩
  live := h.live.mono (fun _ hd _ => hd) rfl rfl hq
  rootDirs := h.rootDirs
  under := h.under

theorem Secure.monitor (hroots : Roots roots) (hroom : ∀ r ∈ roots, r.length + 1 < PATH_MAX)
    (h : Secure roots s) {more firstTry : Bool} (hm : monitor N s more firstTry = some t) :
    Secure roots t := by
  rw [InotifyDtree.monitor] at hm
  split at hm
  · cases hm
  · next n q hq =>
    have hmem : n ∈ s.kernel.queue := by simp [hq]
    obtain ⟨⟨u, evLen⟩, hrun, rfl⟩ := Option.map_eq_some_iff.mp hm
    have hu : Secure roots u := by
      refine (h.processNextInotifyEvent (N := N) hroots hroom (fun ev hev => ?_) n.has_moveSelf
        fun hdel => ?_).of_toOption hrun
      · rcases Option.or_eq_some_iff.mp hev with hev | ⟨-, hev⟩
        · exact (h.live.real n hmem).2 ev hev
        · rw [Option.ite_none_right_eq_some, Option.map_eq_some_iff] at hev
          obtain ⟨-, n', hn', rfl⟩ := hev
          exact (h.live.real n' (by simp [hq, List.mem_of_mem_head? hn'])).1
      · have hdead := h.live.dead n.event.wd (by rwa [← eq_of_has_deleteSelf hdel])
        exact hdead.2
    exact hu.setQueue fun n hn => .inl (List.mem_of_mem_drop hn)

/-! ### Runs -/

/-- The queue without its last event; the first event of a rename may stay behind. -/
def loseLast (q : List Notice) : List Notice :=
  match q.getLast? with
  | some (.renamed wd name _ _ cookie) => q.dropLast ++ [.movedFrom wd name cookie]
  | _ => q.dropLast

/-- What the kernel queues in place of the events that are lost. -/
def overflowEvent : Event := ⟨-1, IN_Q_OVERFLOW, 0, 0, []⟩

inductive LossyStep
  | world (a : WorldStep)
  | lose
  | overflow (nextEv : Option Event) (firstTry : Bool)

/-- The world in which events may be lost. Whatever the monitor does for one event, its traversals
included, is one step: it sees the file system as it is at that moment. -/
def lossy (N : Nftw) : Machine (State Fs) LossyStep where
  next s
    | .world a => (world N).next s a
    | .lose => some { s with kernel := { s.kernel with queue := loseLast s.kernel.queue } }
    | .overflow nextEv firstTry =>
      (processNextInotifyEvent (fsKernel N) s overflowEvent nextEv firstTry).toOption.map (·.1)

/-- Pathnames stay shorter than `PATH_MAX`. -/
def Short (s : State Fs) : LossyStep → Prop
  | .world (.mkdir parent name) => (parent ++ '/' :: name).length < PATH_MAX
  | .world (.rename parent name parent' name') =>
    parent ++ '/' :: name = parent' ++ '/' :: name' ∨
      ∀ d ∈ s.kernel.dirs, Under '/' (parent ++ '/' :: name) d.path →
        (d.move (parent ++ '/' :: name) (parent' ++ '/' :: name')).path.length < PATH_MAX
  | _ => True

theorem process_overflow (s : State Fs) (nextEv : Option Event) (firstTry : Bool) :
    processNextInotifyEvent (fsKernel N) s overflowEvent nextEv firstTry =
      (·, (INOTIFY_READ_BUF_LEN : Int)) <$> reinitialize (fsKernel N) s s.inotifyFd := by
  have hhas : ∀ bits, overflowEvent.has bits = (IN_Q_OVERFLOW &&& bits != 0) := fun _ => rfl
  rw [processNextInotifyEvent, if_neg fun h => h.1 rfl, processEvent,
    if_neg (by rw [hhas, hhas]; decide), if_neg (by rw [hhas]; decide),
    if_neg (by rw [Event.movedFromDir, overflowEvent]; decide), if_pos (by rw [hhas]; decide)]
  simp only [finishEvent_fs]
  rfl

theorem mem_loseLast {q : List Notice} {n : Notice} (hreal : ∀ n ∈ q, n.Real)
    (h : n ∈ loseLast q) : n ∈ q ∨ n.Real ∧ ∀ wd, n ≠ deleteSelf wd := by
  rw [loseLast] at h
  split at h
  · next wd name wd' name' cookie hlast =>
    refine (List.mem_append.mp h).imp (List.dropLast_subset q ·) fun hn => ?_
    obtain rfl := List.mem_singleton.mp hn
    have hwd := (hreal _ (List.mem_of_getLast? hlast)).1
    exact ⟨⟨hwd, by simp [second]⟩, by simp⟩
  · exact .inl (List.dropLast_subset q h)

theorem Secure.next (hroots : Roots roots) (hroom : ∀ r ∈ roots, r.length + 1 < PATH_MAX)
    (h : Secure roots s) {a : LossyStep} (ha : Short s a) (hn : (lossy N).next s a = some t) :
    Secure roots t := by
  cases a with
  | world a =>
    cases a with
    | mkdir parent name =>
      obtain ⟨k, hk, rfl⟩ := Option.map_eq_some_iff.mp hn
      exact h.mkdir hroots hk ha
    | rmdir path =>
      obtain ⟨k, hk, rfl⟩ := Option.map_eq_some_iff.mp hn
      exact h.rmdir hk
    | rename parent name parent' name' =>
      obtain ⟨k, hk, rfl⟩ := Option.map_eq_some_iff.mp hn
      exact h.rename hroots hk ha
    | monitor more firstTry => exact h.monitor hroots hroom hn
  | lose =>
    cases hn
    exact h.setQueue fun n hn => mem_loseLast h.live.real hn
  | overflow nextEv firstTry =>
    obtain ⟨r, hr, rfl⟩ := Option.map_eq_some_iff.mp hn
    rw [process_overflow] at hr
    have hpost : Post (fun _ => True) (fun r : State Fs × Int => Secure roots r.1)
        ((·, (INOTIFY_READ_BUF_LEN : Int)) <$>
          InotifyDtree.reinitialize (fsKernel N) s s.inotifyFd) :=
      Post.map (h.reinitialize_post hroots _)
    exact hpost.of_toOption hr

end Tlpi.InotifyDtree
