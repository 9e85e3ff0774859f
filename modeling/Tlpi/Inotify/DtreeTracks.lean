import Tlpi.Inotify.DtreeReplay
import Tlpi.Inotify.DtreeTree

/-!
# The queue accounts for the difference between the cache and the file system

`Tracks` says that the cache, after what the queue will do to it, has exactly the watched directories
with their current pathnames, and that a scan is still to come for every directory that is not
watched. The operations on the file system keep it, a rename under a condition on the queue, and so
do the steps of the monitor.
-/

namespace Tlpi.InotifyDtree

open Notice

variable {roots : List CString} {M : View} {q : List Notice} {fs fs' : Fs}

/-- The watch `wd` is on the directory with the pathname `path`. -/
def Fs.Watching (fs : Fs) (wd : Int) (path : CString) : Prop :=
  ∃ d ∈ fs.dirs, d.path = path ∧ ∃ m ∈ fs.marks, m.ino = d.ino ∧ m.wd = wd

/-- A directory has at most one watch, and a watch is on one directory. -/
structure Marks (fs : Fs) : Prop where
  ino_inj : ∀ m ∈ fs.marks, ∀ m' ∈ fs.marks, m.ino = m'.ino → m = m'
  wd_inj : ∀ m ∈ fs.marks, ∀ m' ∈ fs.marks, m.wd = m'.wd → m = m'
  dir : ∀ m ∈ fs.marks, ∃ d ∈ fs.dirs, d.ino = m.ino
  le : ∀ m ∈ fs.marks, m.wd ≤ fs.lastWd

structure Tracks (roots : List CString) (M : View) (q : List Notice) (fs : Fs) : Prop where
  marks : Marks fs
  truth : ∀ wd path, replay M q wd = some path ↔ fs.Watching wd path
  known : AllAlong Notice.apply Known M q
  stable : Stable M q
  rooted : Rooted roots M q
  covered : ∀ d ∈ fs.dirs, fs.markOf d.ino = none → Covers d.path M q
  bound : ∀ wd path, M wd = some path → wd ≤ fs.lastWd

theorem markOf_mem {ino : Nat} {m : Mark} (h : fs.markOf ino = some m) :
    m ∈ fs.marks ∧ m.ino = ino :=
  ⟨List.mem_of_find?_eq_some h, by simpa using List.find?_some h⟩

theorem markOf_eq_none {ino : Nat} : fs.markOf ino = none ↔ ∀ m ∈ fs.marks, m.ino ≠ ino := by
  simp [Fs.markOf]

/-- A watched directory is in the cache when the queue is through. -/
theorem Tracks.replay_mark (h : Tracks roots M q fs) {d : Dir} (hd : d ∈ fs.dirs) {m : Mark}
    (hm : fs.markOf d.ino = some m) : replay M q m.wd = some d.path :=
  (h.truth _ _).mpr ⟨d, hd, rfl, m, (markOf_mem hm).1, (markOf_mem hm).2, rfl⟩

theorem Tracks.isSome_mark (h : Tracks roots M q fs) {d : Dir} (hd : d ∈ fs.dirs) {m : Mark}
    (hm : fs.markOf d.ino = some m) : (replay M q m.wd).isSome := by
  rw [h.replay_mark hd hm]
  rfl

/-- A path that is the pathname of no watched directory is not in the cache when the queue is
through. -/
theorem Tracks.replay_ne (h : Tracks roots M q fs) {path : CString}
    (hpath : ∀ d ∈ fs.dirs, d.path = path → fs.markOf d.ino = none) (x : Int) :
    replay M q x ≠ some path := by
  intro hx
  obtain ⟨d, hd, hdp, m, hm, hino, -⟩ := (h.truth _ _).mp hx
  exact markOf_eq_none.mp (hpath d hd hdp) m hm hino

/-- The event for a new directory in a watched parent makes the monitor scan it. -/
theorem Tracks.willScan_new (h : Tracks roots M q fs) {p : Dir} {m : Mark} {name : CString}
    {n : Notice} (hp : p ∈ fs.dirs) (hm : fs.markOf p.ino = some m)
    (hlen : (p.path ++ '/' :: name).length < PATH_MAX)
    (hn : ∀ M : View, n.scans M = (M m.wd).map (eventPath · name))
    (hfree : ∀ d ∈ fs.dirs, d.path = p.path ++ '/' :: name → fs.markOf d.ino = none) :
    n.WillScan (replay M q) (p.path ++ '/' :: name) := by
  refine ⟨?_, h.replay_ne hfree⟩
  rw [hn, h.replay_mark hp hm, Option.map_some, eventPath_eq hlen]

theorem Tracks.rooted_new (ht : Tree roots fs) (h : Tracks roots M q fs) {p : Dir} {m : Mark}
    {name : CString} {n : Notice} (hp : p ∈ fs.dirs) (hm : fs.markOf p.ino = some m)
    (hlen : (p.path ++ '/' :: name).length < PATH_MAX)
    (hn : ∀ M : View, n.scans M = (M m.wd).map (eventPath · name)) :
    Rooted roots M (q ++ [n]) := by
  refine allAlong_append.mpr ⟨h.rooted, fun F hF => ?_, trivial⟩
  obtain ⟨e, -, hr, hu⟩ := ht.exists_root hp
  have := hF.1
  change n.scans (replay M q) = some F at this
  rw [hn, h.replay_mark hp hm, Option.map_some, eventPath_eq hlen, Option.some.injEq] at this
  exact ⟨e.path, hr, this ▸ hu.trans (.child ..)⟩

/-- Entries that make no scan keep the scans in the trees. -/
theorem Tracks.rooted_append (h : Tracks roots M q fs) {q' : List Notice}
    (hq' : ∀ n ∈ q', ∀ M, n.scans M = none) : Rooted roots M (q ++ q') :=
  allAlong_append.mpr ⟨h.rooted, allAlong_of_forall fun n hn M _ hF =>
    absurd hF (Notice.not_willScan (hq' n hn M) _)⟩

/-! ### The operations -/

theorem Tracks.mkdir {parent name : CString} (ht : Tree roots fs)
    (h : Tracks roots M fs.queue fs) (hm : fs.mkdir parent name = some fs')
    (hlen : (parent ++ '/' :: name).length < PATH_MAX) : Tracks roots M fs'.queue fs' := by
  obtain ⟨p, hp, rfl, hname, hnew, rfl⟩ := mkdir_cases hm
  -- The new inode has no watch.
  have hino : ∀ m ∈ fs.marks, m.ino ≠ fs.nextIno := fun m hm => by
    obtain ⟨d, hd, hdm⟩ := h.marks.dir m hm
    have := ht.ino_lt d hd
    omega
  have hreplay : replay M (fs.queue ++ ((fs.markOf p.ino).map fun m => .create m.wd name).toList) =
      replay M fs.queue := by
    cases fs.markOf p.ino with
    | none => simp
    | some m => simp [Notice.apply]
  refine ⟨⟨h.marks.ino_inj, h.marks.wd_inj, fun m hm => ?_, h.marks.le⟩, fun wd path => ?_, ?_, ?_,
    ?_, fun d hd hnone => ?_, h.bound⟩
  · obtain ⟨d, hd, hdm⟩ := h.marks.dir m hm
    exact ⟨d, List.mem_append_left _ hd, hdm⟩
  · rw [hreplay, h.truth]
    constructor
    · rintro ⟨d, hd, hrest⟩
      exact ⟨d, List.mem_append_left _ hd, hrest⟩
    · rintro ⟨d, hd, hdp, m, hm, hmd, hwd⟩
      rcases List.mem_append.mp hd with hd | hd
      · exact ⟨d, hd, hdp, m, hm, hmd, hwd⟩
      · rw [List.mem_singleton.mp hd] at hmd
        exact absurd hmd (hino m hm)
  · refine allAlong_append.mpr ⟨h.known, ?_⟩
    cases hpm : fs.markOf p.ino with
    | none => trivial
    | some m => exact ⟨h.isSome_mark hp hpm, trivial⟩
  · refine h.stable.append fun n hn M => ?_
    rw [Option.mem_toList, Option.map_eq_some_iff] at hn
    obtain ⟨m, -, rfl⟩ := hn
    rfl
  · cases hpm : fs.markOf p.ino with
    | none => exact h.rooted_append fun _ hn => absurd hn List.not_mem_nil
    | some m => exact h.rooted_new ht hp hpm hlen fun _ => rfl
  · rcases List.mem_append.mp hd with hd | hd
    · exact (h.covered d hd hnone).append _
    · rw [List.mem_singleton.mp hd]
      cases hpm : fs.markOf p.ino with
      | none => exact ((h.covered p hp hpm).mono (.child ..)).append _
      | some m =>
        exact someAlong_append.mpr (.inr (.inl ⟨_, h.willScan_new hp hpm hlen (fun _ => rfl)
          fun d hd hdp => absurd hdp (hnew d hd), .refl ..⟩))

/-- The end of a directory. -/
theorem Tracks.evict {t : Dir} (htm : t ∈ fs.dirs) (h : Tracks roots M fs.queue fs) :
    Tracks roots M (fs.evict t.ino).queue (fs.evict t.ino) := by
  have hmem : ∀ {m : Mark}, m ∈ (fs.evict t.ino).marks ↔ m ∈ fs.marks ∧ m.ino ≠ t.ino := by
    simp [Fs.evict]
  have hqueue : (fs.evict t.ino).queue = fs.queue ++
      ((fs.markOf t.ino).map fun m => [.deleteSelf m.wd, .ignored m.wd]).getD [] := rfl
  have hdel : ∀ n ∈ ((fs.markOf t.ino).map fun m =>
      [Notice.deleteSelf m.wd, .ignored m.wd]).getD [], ∀ M, n.moves M = none ∧ n.scans M = none := by
    intro n hn M
    cases ht : fs.markOf t.ino with
    | none => simp [ht] at hn
    | some m =>
      rw [ht, Option.map_some, Option.getD_some, List.mem_cons, List.mem_singleton] at hn
      obtain rfl | rfl := hn <;> exact ⟨rfl, rfl⟩
  refine ⟨⟨?_, ?_, ?_, ?_⟩, fun wd path => ?_, ?_, ?_, ?_, fun d hd hnone => ?_, h.bound⟩
  · exact fun m hm m' hm' => h.marks.ino_inj m (hmem.mp hm).1 m' (hmem.mp hm').1
  · exact fun m hm m' hm' => h.marks.wd_inj m (hmem.mp hm).1 m' (hmem.mp hm').1
  · intro m hm
    obtain ⟨d, hd, hdm⟩ := h.marks.dir m (hmem.mp hm).1
    exact ⟨d, mem_evict.mpr ⟨hd, hdm ▸ (hmem.mp hm).2⟩, hdm⟩
  · exact fun m hm => h.marks.le m (hmem.mp hm).1
  · have hwatch : (fs.evict t.ino).Watching wd path ↔ fs.Watching wd path ∧
        ∀ m, fs.markOf t.ino = some m → wd ≠ m.wd := by
      constructor
      · rintro ⟨d, hd, hdp, m, hm, hmd, rfl⟩
        refine ⟨⟨d, (mem_evict.mp hd).1, hdp, m, (hmem.mp hm).1, hmd, rfl⟩, fun m' hm' heq => ?_⟩
        obtain rfl := h.marks.wd_inj m (hmem.mp hm).1 m' (markOf_mem hm').1 heq
        exact (hmem.mp hm).2 (markOf_mem hm').2
      · rintro ⟨⟨d, hd, hdp, m, hm, hmd, rfl⟩, hne⟩
        have hmt : m.ino ≠ t.ino := by
          intro heq
          cases ht : fs.markOf t.ino with
          | none => exact markOf_eq_none.mp ht m hm heq
          | some m' =>
            refine hne m' ht ?_
            rw [h.marks.ino_inj m hm m' (markOf_mem ht).1 (heq.trans (markOf_mem ht).2.symm)]
        exact ⟨d, mem_evict.mpr ⟨hd, hmd ▸ hmt⟩, hdp, m, hmem.mpr ⟨hm, hmt⟩, hmd, rfl⟩
    rw [hqueue, hwatch, ← h.truth, replay, List.foldl_append]
    cases ht : fs.markOf t.ino with
    | none => simp
    | some m =>
      simp only [Option.map_some, Option.getD_some, List.foldl_cons, List.foldl_nil, Notice.apply,
        Function.update_apply, Option.some.injEq, forall_eq']
      split
      · next heq => simp [heq]
      · next hne => simp [hne]
  · rw [hqueue]
    refine allAlong_append.mpr ⟨h.known, ?_⟩
    cases ht : fs.markOf t.ino with
    | none => trivial
    | some m => exact ⟨h.isSome_mark htm ht, trivial, trivial⟩
  · rw [hqueue]
    exact h.stable.append fun n hn M => (hdel n hn M).1
  · rw [hqueue]
    exact h.rooted_append fun n hn M => (hdel n hn M).2
  · obtain ⟨hd, hne⟩ := mem_evict.mp hd
    rw [hqueue]
    refine (h.covered d hd (markOf_eq_none.mpr fun m hm heq => ?_)).append _
    exact markOf_eq_none.mp hnone m (hmem.mpr ⟨hm, heq ▸ hne⟩) heq

theorem mem_move {p p' : Dir} {name name' : CString} {e : Dir} :
    e ∈ (fs.move p p' name name').dirs ↔
      ∃ d ∈ fs.dirs, e = d.move (p.path ++ '/' :: name) (p'.path ++ '/' :: name') := by
  simp only [Fs.move, List.mem_map, eq_comm]

theorem Marks.move {p p' : Dir} {name name' : CString} (h : Marks fs) :
    Marks (fs.move p p' name name') := by
  refine ⟨h.ino_inj, h.wd_inj, fun m hm => ?_, h.le⟩
  obtain ⟨d, hd, hdm⟩ := h.dir m hm
  exact ⟨_, mem_move.mpr ⟨d, hd, rfl⟩, (Dir.move_ino ..).trans hdm⟩

theorem length_new_lt {old new : CString} (hold : ∃ d ∈ fs.dirs, d.path = old)
    (hlen : ∀ d ∈ fs.dirs, Under '/' old d.path → (d.move old new).path.length < PATH_MAX) :
    new.length < PATH_MAX := by
  obtain ⟨d, hd, rfl⟩ := hold
  have := hlen d hd (.refl ..)
  rw [Dir.move_under (.refl ..), List.length_append] at this
  omega

/-- The pathname that `rewriteCachedPaths` computes is that of the file system. -/
theorem rewritePath_eq {old new : CString} {d : Dir}
    (hlen : Under '/' old d.path → (d.move old new).path.length < PATH_MAX) :
    rewritePath old new d.path = (d.move old new).path := by
  by_cases hu : Under '/' old d.path
  · have hlt := hlen hu
    rw [Dir.move_under hu] at hlt ⊢
    exact rewritePath_of_under hu hlt
  · rw [Dir.move_not_under hu, rewritePath, if_neg (by rwa [isUnder_iff])]

/-- A rename between watched directories, when no scan is to come above or below the directory. -/
theorem Tracks.move_renamed {p p' : Dir} {name name' : CString} {m m' : Mark} (ht : Tree roots fs)
    (h : Tracks roots M fs.queue fs) (hp : p ∈ fs.dirs) (hp' : p' ∈ fs.dirs)
    (hm : fs.markOf p.ino = some m) (hm' : fs.markOf p'.ino = some m')
    (hold : ∃ d ∈ fs.dirs, d.path = p.path ++ '/' :: name)
    (hlen : ∀ d ∈ fs.dirs, Under '/' (p.path ++ '/' :: name) d.path →
      (d.move (p.path ++ '/' :: name) (p'.path ++ '/' :: name')).path.length < PATH_MAX)
    (hu : Untouched (p.path ++ '/' :: name) M fs.queue) :
    Tracks roots M (fs.move p p' name name').queue (fs.move p p' name name') := by
  have hqueue : (fs.move p p' name name').queue =
      fs.queue ++ [.renamed m.wd name m'.wd name' fs.cookie] := by
    rw [Fs.move, hm, hm']
    rfl
  have hnewlen := length_new_lt hold hlen
  obtain ⟨d₀, hd₀, hd₀p⟩ := hold
  have hsn : snprintf PATH_MAX (p.path ++ '/' :: name) = p.path ++ '/' :: name := by
    have hlt := ht.path_lt d₀ hd₀
    rw [hd₀p] at hlt
    exact snprintf_of_lt hlt
  have hsn' : snprintf PATH_MAX (p'.path ++ '/' :: name') = p'.path ++ '/' :: name' :=
    snprintf_of_lt hnewlen
  have hview := h.replay_mark hp hm
  have hview' := h.replay_mark hp' hm'
  refine ⟨h.marks.move, fun wd path => ?_, ?_, ?_, ?_, fun e he hnone => ?_, h.bound⟩
  · rw [hqueue, replay, List.foldl_append]
    simp only [List.foldl_cons, List.foldl_nil, Notice.apply]
    simp only [show List.foldl Notice.apply M fs.queue m.wd = some p.path from hview,
      show List.foldl Notice.apply M fs.queue m'.wd = some p'.path from hview', hsn, hsn',
      Option.map_eq_some_iff]
    constructor
    · rintro ⟨path, hpath, rfl⟩
      obtain ⟨d, hd, rfl, m, hm, hmd, hwd⟩ := (h.truth _ _).mp hpath
      exact ⟨_, mem_move.mpr ⟨d, hd, rfl⟩, (rewritePath_eq (hlen d hd)).symm, m, hm,
        hmd.trans (Dir.move_ino ..).symm, hwd⟩
    · rintro ⟨e, he, rfl, m, hm, hmd, hwd⟩
      obtain ⟨d, hd, rfl⟩ := mem_move.mp he
      rw [Dir.move_ino] at hmd
      exact ⟨d.path, (h.truth _ _).mpr ⟨d, hd, rfl, m, hm, hmd, hwd⟩, rewritePath_eq (hlen d hd)⟩
  · rw [hqueue]
    exact allAlong_append.mpr ⟨h.known, ⟨h.isSome_mark hp hm, h.isSome_mark hp' hm'⟩, trivial⟩
  · rw [hqueue]
    refine h.stable.append_renamed (fun _ => rfl) (fun o ho => ?_) hu
    rw [moves, hview, Option.map_some, hsn] at ho
    exact (Option.some.inj ho).symm
  · rw [hqueue]
    refine h.rooted_append fun n hn M => ?_
    rw [List.mem_singleton.mp hn]
    rfl
  · obtain ⟨d, hd, rfl⟩ := mem_move.mp he
    rw [Dir.move_ino] at hnone
    have hc := h.covered d hd hnone
    -- A scan above a directory of the subtree would be above or below the directory itself.
    have hdu : ¬Under '/' (p.path ++ '/' :: name) d.path := fun hdu => by
      obtain ⟨M', n, ⟨F, hF, hFd⟩, hapart⟩ := SomeAlong.and_all hc hu
      exact (hapart F hF).not_under hFd hdu
    rw [Dir.move_not_under hdu, hqueue]
    exact hc.append _

/-- A rename of directories that are not watched yet. -/
theorem Tracks.move_unwatched {p p' : Dir} {name name' : CString} (ht : Tree roots fs)
    (h : Tracks roots M fs.queue fs) (hp' : p' ∈ fs.dirs) (hm : fs.markOf p.ino = none)
    (hold : ∃ d ∈ fs.dirs, d.path = p.path ++ '/' :: name)
    (hlen : ∀ d ∈ fs.dirs, Under '/' (p.path ++ '/' :: name) d.path →
      (d.move (p.path ++ '/' :: name) (p'.path ++ '/' :: name')).path.length < PATH_MAX)
    (hsub : ∀ d ∈ fs.dirs, Under '/' (p.path ++ '/' :: name) d.path → fs.markOf d.ino = none)
    (hnew : (fs.markOf p'.ino).isSome → ∀ d ∈ fs.dirs, d.path = p'.path ++ '/' :: name' →
      fs.markOf d.ino = none) :
    Tracks roots M (fs.move p p' name name').queue (fs.move p p' name name') := by
  have hqueue : (fs.move p p' name name').queue =
      fs.queue ++ ((fs.markOf p'.ino).map fun m' => .movedTo m'.wd name' fs.cookie).toList := by
    rw [Fs.move, hm]
    cases fs.markOf p'.ino <;> rfl
  have hnewlen := length_new_lt hold hlen
  have hwatch : ∀ wd path, (fs.move p p' name name').Watching wd path ↔ fs.Watching wd path := by
    have hstay : ∀ d ∈ fs.dirs, ∀ m ∈ fs.marks, m.ino = d.ino →
        d.move (p.path ++ '/' :: name) (p'.path ++ '/' :: name') = d := fun d hd m hm hmd =>
      Dir.move_not_under fun hu => markOf_eq_none.mp (hsub d hd hu) m hm hmd
    intro wd path
    constructor
    · rintro ⟨e, he, rfl, m, hm, hmd, hwd⟩
      obtain ⟨d, hd, rfl⟩ := mem_move.mp he
      rw [Dir.move_ino] at hmd
      exact ⟨d, hd, by rw [hstay d hd m hm hmd], m, hm, hmd, hwd⟩
    · rintro ⟨d, hd, rfl, m, hm, hmd, hwd⟩
      refine ⟨_, mem_move.mpr ⟨d, hd, rfl⟩, ?_, m, hm, hmd.trans (Dir.move_ino ..).symm, hwd⟩
      rw [hstay d hd m hm hmd]
  refine ⟨h.marks.move, fun wd path => ?_, ?_, ?_, ?_, fun e he hnone => ?_, h.bound⟩
  · rw [hwatch, ← h.truth, hqueue, replay, List.foldl_append]
    cases fs.markOf p'.ino <;> rfl
  · rw [hqueue]
    refine allAlong_append.mpr ⟨h.known, ?_⟩
    cases hm' : fs.markOf p'.ino with
    | none => trivial
    | some m' => exact ⟨h.isSome_mark hp' hm', trivial⟩
  · rw [hqueue]
    refine h.stable.append fun n hn M => ?_
    rw [Option.mem_toList, Option.map_eq_some_iff] at hn
    obtain ⟨m, -, rfl⟩ := hn
    rfl
  · rw [hqueue]
    cases hm' : fs.markOf p'.ino with
    | none => exact h.rooted_append fun _ hn => absurd hn List.not_mem_nil
    | some m' => exact h.rooted_new ht hp' hm' hnewlen fun _ => rfl
  · obtain ⟨d, hd, rfl⟩ := mem_move.mp he
    rw [Dir.move_ino] at hnone
    rw [hqueue]
    by_cases hdu : Under '/' (p.path ++ '/' :: name) d.path
    · rw [Dir.move_under hdu]
      cases hm' : fs.markOf p'.ino with
      | none =>
        exact ((h.covered p' hp' hm').mono ((Under.child ..).trans (hdu.drop_append _))).append _
      | some m' =>
        exact someAlong_append.mpr (.inr (.inl ⟨_, h.willScan_new hp' hm' hnewlen (fun _ => rfl)
          (hnew (hm' ▸ rfl)), hdu.drop_append _⟩))
    · rw [Dir.move_not_under hdu]
      exact (h.covered d hd hnone).append _

/-! ### The monitor -/

theorem apply_of_scans {n : Notice} {F : CString} (h : n.scans M = some F) : n.apply M = M := by
  cases n with
  | create | movedTo => rfl
  | _ => cases h

/-- The monitor deals with an entry that makes no scan. -/
theorem Tracks.shift {n : Notice} (h : Tracks roots M (n :: q) fs)
    (hn : ∀ F, ¬n.WillScan M F) : Tracks roots (n.apply M) q fs := by
  refine ⟨h.marks, h.truth, h.known.2, h.stable.2, h.rooted.2, fun d hd hnone => ?_,
    fun wd path hwd => ?_⟩
  · exact (h.covered d hd hnone).resolve_left fun ⟨F, hF, _⟩ => hn F hF
  · cases hM : M wd with
    | none => rw [apply_eq_none hM] at hwd; cases hwd
    | some p => exact h.bound wd p hM

/-- The watches are in the cache, and the next descriptor is free. -/
structure Sane (M : View) (fs : Fs) : Prop where
  marks : Marks fs
  known : ∀ m ∈ fs.marks, (M m.wd).isSome
  bound : ∀ wd path, M wd = some path → wd ≤ fs.lastWd

/-- A scan of the directories of `S`: those that are not watched yet get a watch and an entry in the
cache. -/
structure Scan (S : Dir → Prop) (M : View) (fs : Fs) (M' : View) (fs' : Fs) : Prop where
  frame : fs' = { fs with
    marks := fs'.marks
    lastWd := fs'.lastWd }
  le : fs.lastWd ≤ fs'.lastWd
  old : ∀ m ∈ fs.marks, m ∈ fs'.marks
  new : ∀ m ∈ fs'.marks, m ∈ fs.marks ∨ fs.lastWd < m.wd ∧
    ∃ d ∈ fs.dirs, S d ∧ d.ino = m.ino ∧ fs.markOf d.ino = none
  covers : ∀ d ∈ fs.dirs, S d → ∃ m ∈ fs'.marks, m.ino = d.ino
  view : ∀ wd path, M' wd = some path ↔ M wd = some path ∨ ∃ m ∈ fs'.marks, m ∉ fs.marks ∧
    m.wd = wd ∧ ∃ d ∈ fs.dirs, d.ino = m.ino ∧ d.path = path
  sane : Sane M' fs'

theorem Scan.dirs_eq {S : Dir → Prop} {M' : View} (h : Scan S M fs M' fs') : fs'.dirs = fs.dirs := by
  rw [h.frame]

theorem Scan.trans {S S' : Dir → Prop} {M' M'' : View} {fs'' : Fs} (h : Scan S M fs M' fs')
    (h' : Scan S' M' fs' M'' fs'') : Scan (fun d => S d ∨ S' d) M fs M'' fs'' := by
  refine ⟨?_, Nat.le_trans h.le h'.le, fun m hm => h'.old m (h.old m hm), fun m hm => ?_, fun d hd hS => ?_,
    fun wd path => ?_, h'.sane⟩
  · rw [h'.frame, h.frame]
  · rcases h'.new m hm with hm | ⟨hlt, d, hd, hS, hdm, hnone⟩
    · exact (h.new m hm).imp_right fun ⟨hlt, d, hd, hS, hdm⟩ => ⟨hlt, d, hd, .inl hS, hdm⟩
    · have := h.le
      refine .inr ⟨by omega, d, h.dirs_eq ▸ hd, .inr hS, hdm, markOf_eq_none.mpr fun m hm => ?_⟩
      exact markOf_eq_none.mp hnone m (h.old m hm)
  · rcases hS with hS | hS
    · obtain ⟨m, hm, hmd⟩ := h.covers d hd hS
      exact ⟨m, h'.old m hm, hmd⟩
    · exact h'.covers d (h.dirs_eq ▸ hd) hS
  · rw [h'.view, h.view, h.dirs_eq]
    constructor
    · rintro ((hM | ⟨m, hm, hnot, hrest⟩) | ⟨m, hm, hnot, hrest⟩)
      · exact .inl hM
      · exact .inr ⟨m, h'.old m hm, hnot, hrest⟩
      · exact .inr ⟨m, hm, fun hm => hnot (h.old m hm), hrest⟩
    · rintro (hM | ⟨m, hm, hnot, hrest⟩)
      · exact .inl (.inl hM)
      · by_cases hm' : m ∈ fs'.marks
        · exact .inl (.inr ⟨m, hm', hnot, hrest⟩)
        · exact .inr ⟨m, hm, hm', hrest⟩

theorem Scan.refl (h : Sane M fs) : Scan (fun _ => False) M fs M fs where
  frame := rfl
  le := Nat.le_refl _
  old _ hm := hm
  new _ hm := .inl hm
  covers _ _ hS := hS.elim
  view _ _ := ⟨.inl, fun h => h.elim id fun ⟨_, hm, hnot, _⟩ => absurd hm hnot⟩
  sane := h

theorem Tracks.sane (h : Tracks roots M q fs) : Sane M fs := by
  refine ⟨h.marks, fun m hm => ?_, h.bound⟩
  obtain ⟨d, hd, hdm⟩ := h.marks.dir m hm
  have hview := (h.truth m.wd d.path).mpr ⟨d, hd, rfl, m, hm, hdm.symm, rfl⟩
  cases hM : M m.wd with
  | some p => rfl
  | none =>
    have : ∀ (q : List Notice) (M : View), M m.wd = none → replay M q m.wd = none := by
      intro q
      induction q with
      | nil => exact fun _ h => h
      | cons n q ih => exact fun M h => ih _ (apply_eq_none h)
    rw [this q M hM] at hview
    cases hview

/-- What a scan finds is left alone by the entries behind it. -/
theorem Tracks.leavesAlone {n : Notice} {F : CString} (h : Tracks roots M (n :: q) fs)
    (hF : n.WillScan M F) : AllAlong Notice.apply (LeavesAlone F) M q := by
  have happ := apply_of_scans hF.1
  have hknown : AllAlong Notice.apply Known M q := happ ▸ h.known.2
  have hstable : Clear F M q := happ ▸ h.stable.1 F hF
  exact hknown.and hstable

/-- The entries of the cache that a scan has added. -/
def View.added (M M' : View) : View := fun x => if M x = none then M' x else none

theorem Scan.added_iff {S : Dir → Prop} {M' : View} (hs : Scan S M fs M' fs')
    (hbound : ∀ wd path, M wd = some path → wd ≤ fs.lastWd) {x : Int} {p : CString} :
    M.added M' x = some p ↔ ∃ m ∈ fs'.marks, m ∉ fs.marks ∧ m.wd = x ∧
      ∃ d ∈ fs.dirs, d.ino = m.ino ∧ d.path = p := by
  simp only [View.added, Option.ite_none_right_eq_some, hs.view]
  constructor
  · rintro ⟨hnone, hM | hnew⟩
    · rw [hnone] at hM
      cases hM
    · exact hnew
  · intro hnew
    refine ⟨?_, .inr hnew⟩
    obtain ⟨m, hm, hnot, rfl, -⟩ := hnew
    have hlt := ((hs.new m hm).resolve_left hnot).1
    cases hM : M m.wd with
    | none => rfl
    | some p' =>
      have := hbound _ _ hM
      omega

theorem Scan.extends {F : CString} {S : Dir → Prop} {M' : View} (ht : Tree roots fs)
    (hs : Scan S M fs M' fs') (hbound : ∀ wd path, M wd = some path → wd ≤ fs.lastWd)
    (hS : ∀ d ∈ fs.dirs, S d → Under '/' F d.path) : Extends F (M.added M') M M' := by
  refine ⟨?_, fun x p hx => ?_, fun x p hx => ?_⟩
  · funext x
    cases hM : M x with
    | none => simp [View.union, View.added, hM]
    | some p => simp [View.union, hM, (hs.view x p).mpr (.inl hM)]
  · simp only [View.added, Option.ite_none_right_eq_some] at hx
    exact hx.1
  · obtain ⟨m, hm, hnot, -, d, hd, hdm, rfl⟩ := (hs.added_iff hbound).mp hx
    obtain ⟨-, e, he, hSe, hem, -⟩ := (hs.new m hm).resolve_left hnot
    rw [ht.ino_inj d hd e he (hdm.trans hem.symm)]
    exact hS e he hSe

/-- The monitor deals with an entry that makes it scan `F`. -/
theorem Tracks.scan {n : Notice} {F : CString} {S : Dir → Prop} {M' : View} (ht : Tree roots fs)
    (h : Tracks roots M (n :: q) fs) (hF : n.WillScan M F) (hs : Scan S M fs M' fs')
    (hS : ∀ d ∈ fs.dirs, S d ↔ Under '/' F d.path) : Tracks roots M' q fs' := by
  have happ := apply_of_scans hF.1
  have hall := h.leavesAlone hF
  have hext := hs.extends ht h.bound fun d hd => (hS d hd).mp
  have hend : Extends F (M.added M') (replay M q) (replay M' q) :=
    foldl_transfer (R := Extends F (M.added M')) (Q := LeavesAlone F)
      (fun _ _ n h hn => h.apply (n := n) hn) hext hall
  refine ⟨hs.sane.marks, fun wd path => ?_, known_extend hext hall,
    (happ ▸ h.stable.2).extend hext hall, (happ ▸ h.rooted.2 : Rooted roots M q).extend hext hall,
    fun d hd hnone => ?_, hs.sane.bound⟩
  · have hold : replay M q wd = some path ↔ fs.Watching wd path := by
      rw [← h.truth, replay, replay, List.foldl_cons, happ]
    have hsplit : replay M' q wd = some path ↔
        replay M q wd = some path ∨ M.added M' wd = some path := by
      rw [hend.eq, View.union, Option.or_eq_some_iff]
      refine or_congr .rfl ⟨fun h => h.2, fun h => ⟨hend.disjoint wd path h, h⟩⟩
    rw [hsplit, hold, hs.added_iff h.bound]
    constructor
    · rintro (⟨d, hd, hdp, m, hm, hrest⟩ | ⟨m, hm, -, hwd, d, hd, hdm, hdp⟩)
      · exact ⟨d, hs.dirs_eq ▸ hd, hdp, m, hs.old m hm, hrest⟩
      · exact ⟨d, hs.dirs_eq ▸ hd, hdp, m, hm, hdm.symm, hwd⟩
    · rintro ⟨d, hd, hdp, m, hm, hmd, hwd⟩
      rw [hs.dirs_eq] at hd
      by_cases hm' : m ∈ fs.marks
      · exact .inl ⟨d, hd, hdp, m, hm', hmd, hwd⟩
      · exact .inr ⟨m, hm, hm', hwd, d, hd, hmd.symm, hdp⟩
  · rw [hs.dirs_eq] at hd
    have hdF : ¬Under '/' F d.path := fun hu => by
      obtain ⟨m, hm, hmd⟩ := hs.covers d hd ((hS d hd).mpr hu)
      exact markOf_eq_none.mp hnone m hm hmd
    have hold : fs.markOf d.ino = none :=
      markOf_eq_none.mpr fun m hm => markOf_eq_none.mp hnone m (hs.old m hm)
    refine Covers.extend hext hall hdF (happ ▸ (h.covered d hd hold).resolve_left ?_)
    rintro ⟨G, hG, hGd⟩
    rw [Option.some.inj (hG.1.symm.trans hF.1)] at hGd
    exact hdF hGd

end Tlpi.InotifyDtree
