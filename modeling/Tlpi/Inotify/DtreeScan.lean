import Mathlib.Data.List.ReduceOption
import Tlpi.Inotify.DtreeTracks
import Tlpi.Inotify.DtreeLemmas

/-!
# Scans

`watchSubtree` on the modelled file system watches exactly the directories of the subtree that were
not watched before, and so does `reinitialize` for the trees of all roots.
-/

namespace Tlpi.InotifyDtree

variable {roots : List CString} {N : Nftw} {s t : State Fs}

/-- Only the cache and the kernel differ. -/
def SameVars (s t : State Fs) : Prop := t = { s with
  cache := t.cache
  kernel := t.kernel }

/-- The scan of the directories of `S`, on the variables of the program. -/
structure ScanTo (S : Dir → Prop) (s t : State Fs) : Prop where
  vars : SameVars s t
  wf : t.cache.WF
  scan : Scan S s.cache.look s.kernel t.cache.look t.kernel

theorem ScanTo.trans {S S' : Dir → Prop} {u : State Fs} (h : ScanTo S s t) (h' : ScanTo S' t u) :
    ScanTo (fun d => S d ∨ S' d) s u := by
  refine ⟨?_, h'.wf, h.scan.trans h'.scan⟩
  have h₁ := h.vars
  have h₂ := h'.vars
  rw [SameVars] at h₁ h₂ ⊢
  rw [h₂, h₁]

theorem ScanTo.refl (hwf : s.cache.WF) (hsane : Sane s.cache.look s.kernel) :
    ScanTo (fun _ => False) s s :=
  ⟨rfl, hwf, .refl hsane⟩

theorem ScanTo.congr {S S' : Dir → Prop} (h : ScanTo S s t) (hS : ∀ d ∈ s.kernel.dirs, S d ↔ S' d) :
    ScanTo S' s t := by
  refine ⟨h.vars, h.wf, h.scan.frame, h.scan.le, h.scan.old, fun m hm => ?_, fun d hd hd' => ?_,
    h.scan.view, h.scan.sane⟩
  · exact (h.scan.new m hm).imp_right fun ⟨hlt, d, hd, hSd, hrest⟩ =>
      ⟨hlt, d, hd, (hS d hd).mp hSd, hrest⟩
  · exact h.scan.covers d hd ((hS d hd).mpr hd')

theorem Scan.tree {S : Dir → Prop} {M M' : View} {fs fs' : Fs} (h : Scan S M fs M' fs')
    (ht : Tree roots fs) : Tree roots fs' := by
  rw [h.frame]
  exact ⟨ht.ino_inj, ht.path_inj, ht.ino_lt, ht.path_lt, ht.closed⟩

theorem Fs.one_le_lastWd_succ (fs : Fs) : 1 ≤ (fs.lastWd + 1 : Int) := by
  omega

/-- A directory without a watch gets the next descriptor. -/
theorem Scan.add {M : View} {fs : Fs} (ht : Tree roots fs) (hsane : Sane M fs) {d : Dir}
    (hd : d ∈ fs.dirs) (hm : fs.markOf d.ino = none) :
    Scan (· = d) M fs (Function.update M (fs.lastWd + 1) (some d.path)) { fs with
      marks := fs.marks ++ [⟨fs.lastWd + 1, d.ino, fs.one_le_lastWd_succ⟩]
      lastWd := fs.lastWd + 1 } := by
  have hle : ∀ m ∈ fs.marks, m.wd < fs.lastWd + 1 := fun m hm => by
    have := hsane.marks.le m hm
    omega
  have hino := markOf_eq_none.mp hm
  generalize hlast : (⟨fs.lastWd + 1, d.ino, fs.one_le_lastWd_succ⟩ : Mark) = l
  have hwd : l.wd = fs.lastWd + 1 := hlast ▸ rfl
  have hdl : d.ino = l.ino := hlast ▸ rfl
  have hmem : ∀ {m}, m ∈ fs.marks ++ [l] ↔ m ∈ fs.marks ∨ m = l := by simp
  have hnot : l ∉ fs.marks := fun hl => absurd (hle l hl) (by omega)
  refine ⟨rfl, Nat.le_succ _, fun m hm => hmem.mpr (.inl hm), fun m h => ?_, ?_, fun wd path => ?_,
    ⟨⟨fun m h m' h' heq => ?_, fun m h m' h' heq => ?_, fun m h => ?_, fun m h => ?_⟩, fun m h => ?_,
      fun wd path h => ?_⟩⟩
  · refine (hmem.mp h).imp_right ?_
    rintro rfl
    exact ⟨by omega, d, hd, rfl, hdl, hm⟩
  · rintro _ - rfl
    exact ⟨l, hmem.mpr (.inr rfl), hdl.symm⟩
  · rw [Function.update_apply]
    constructor
    · intro hp
      split at hp
      · next heq =>
        exact .inr ⟨l, hmem.mpr (.inr rfl), hnot, hwd.trans heq.symm, d, hd, hdl, Option.some.inj hp⟩
      · exact .inl hp
    · rintro (hp | ⟨m, h, hnew, rfl, e, he, hem, rfl⟩)
      · have := hsane.bound wd path hp
        rw [if_neg (by omega), hp]
      · obtain rfl := (hmem.mp h).resolve_left hnew
        rw [if_pos hwd, ht.ino_inj e he d hd (hem.trans hdl.symm)]
  · rcases hmem.mp h with hl | rfl <;> rcases hmem.mp h' with hl' | rfl
    · exact hsane.marks.ino_inj m hl m' hl' heq
    · exact absurd (heq.trans hdl.symm) (hino m hl)
    · exact absurd (heq.symm.trans hdl.symm) (hino m' hl')
    · rfl
  · rcases hmem.mp h with hl | rfl <;> rcases hmem.mp h' with hl' | rfl
    · exact hsane.marks.wd_inj m hl m' hl' heq
    · exact absurd (hle m hl) (by omega)
    · exact absurd (hle m' hl') (by omega)
    · rfl
  · rcases hmem.mp h with h | rfl
    · exact hsane.marks.dir m h
    · exact ⟨d, hd, hdl⟩
  · change m.wd ≤ ((fs.lastWd + 1 : Nat) : Int)
    rcases hmem.mp h with h | rfl
    · have := hle m h
      omega
    · omega
  · rw [Function.update_apply]
    split
    · rfl
    · next hne =>
      rcases hmem.mp h with h | rfl
      · exact hsane.known m h
      · exact absurd hwd hne
  · change wd ≤ ((fs.lastWd + 1 : Nat) : Int)
    rw [Function.update_apply] at h
    split at h
    · omega
    · have := hsane.bound wd path h
      omega

theorem traverseTree_scan (hroots : Roots roots) (ht : Tree roots s.kernel) (hwf : s.cache.WF)
    (hsane : Sane s.cache.look s.kernel) {d : Dir} (hd : d ∈ s.kernel.dirs) :
    ∃ t, traverseTree (fsKernel N) s d.path true = .ok t ∧ ScanTo (· = d) s t := by
  have hne := ht.path_ne_nil hroots hd
  have hlt := ht.path_lt d hd
  simp only [traverseTree, Kernel.inotifyAddWatch, if_neg hne, if_neg (Nat.not_le.mpr hlt), fsKernel,
    ht.dirAt_path hd, Bool.not_true, Bool.false_eq_true, if_false]
  cases hm : s.kernel.markOf d.ino with
  | some m =>
    obtain ⟨hmem, hino⟩ := markOf_mem hm
    obtain ⟨p, hp⟩ := Option.isSome_iff_exists.mp (hsane.known m hmem)
    obtain ⟨j, hj, -⟩ := hwf.findWatch_look m.one_le hp
    refine ⟨s, by simp [hj], rfl, hwf, ?_⟩
    obtain ⟨hframe, hle, hold, hnew, -, hview, -⟩ := Scan.refl hsane
    refine ⟨hframe, hle, hold, fun m hm => .inl hm, ?_, hview, hsane⟩
    rintro _ - rfl
    exact ⟨m, hmem, hino⟩
  | none =>
    have hfind : s.cache.findWatch (s.kernel.lastWd + 1) = none := by
      rw [hwf.findWatch_eq_none (by omega)]
      cases hlook : s.cache.look (s.kernel.lastWd + 1) with
      | none => rfl
      | some p =>
        have := hsane.bound _ p hlook
        omega
    simp only [hfind, Option.isSome_none, Bool.false_eq_true, if_false]
    refine ⟨_, rfl, rfl, hwf.addWatchToCache (by omega) hne hfind, ?_⟩
    rw [hwf.look_addWatchToCache (by omega) hne hlt hfind]
    exact .add ht hsane hd hm

/-- The loop of a traversal. -/
theorem traverseTree_fold (hroots : Roots roots) (ds : List Dir) (ht : Tree roots s.kernel)
    (hwf : s.cache.WF) (hsane : Sane s.cache.look s.kernel) (hds : ∀ d ∈ ds, d ∈ s.kernel.dirs) :
    ∃ t, (ds.map (·.path, true)).foldlM (fun s p => traverseTree (fsKernel N) s p.1 p.2) s = .ok t ∧
      ScanTo (· ∈ ds) s t := by
  induction ds generalizing s with
  | nil => exact ⟨s, rfl, (ScanTo.refl hwf hsane).congr fun d _ => by simp⟩
  | cons d ds ih =>
    obtain ⟨t, hst, hscan⟩ := traverseTree_scan (N := N) hroots ht hwf hsane
      (hds d (List.mem_cons_self ..))
    obtain ⟨u, htu, hscan'⟩ := ih (hscan.scan.tree ht) hscan.wf hscan.scan.sane fun e he =>
      hscan.scan.dirs_eq ▸ hds e (List.mem_cons_of_mem _ he)
    refine ⟨u, ?_, (hscan.trans hscan').congr fun e _ => List.mem_cons.symm⟩
    rw [List.map_cons, List.foldlM_cons, hst]
    exact htu

/-- The directories that `watchSubtree` visits. -/
def Fs.Visits (fs : Fs) (path : CString) (d : Dir) : Prop :=
  (∃ e ∈ fs.dirs, e.path = path) ∧ Under '/' path d.path

theorem watchSubtree_scan (hroots : Roots roots) (ht : Tree roots s.kernel) (hwf : s.cache.WF)
    (hsane : Sane s.cache.look s.kernel) (path : CString) :
    ∃ t, watchSubtree (fsKernel N) s path = .ok t ∧ ScanTo (s.kernel.Visits path) s t := by
  rw [watchSubtree]
  cases hat : s.kernel.dirAt path with
  | none =>
    refine ⟨s, by simp [fsKernel, hat, pure, Except.pure], (ScanTo.refl hwf hsane).congr fun d _ => ?_⟩
    refine ⟨False.elim, ?_⟩
    rintro ⟨⟨e, he, hpath⟩, -⟩
    exact dirAt_eq_none.mp hat e he hpath
  | some e =>
    obtain ⟨t, hst, hscan⟩ := traverseTree_fold (N := N) hroots (N.visit s.kernel.dirs path) ht hwf
      hsane fun d hd => ((N.mem_visit ..).mp hd).1
    refine ⟨t, by simpa [fsKernel, hat] using hst, hscan.congr fun d hd => ?_⟩
    rw [N.mem_visit, isUnder_iff]
    exact ⟨fun h => ⟨⟨e, dirAt_mem hat⟩, h.2⟩, fun h => ⟨hd, h.2⟩⟩

/-- The loop of `reinitialize`. -/
theorem watchSubtree_fold (hroots : Roots roots) (paths : List CString) (ht : Tree roots s.kernel)
    (hwf : s.cache.WF) (hsane : Sane s.cache.look s.kernel) :
    ∃ t, paths.foldlM (watchSubtree (fsKernel N)) s = .ok t ∧
      ScanTo (fun d => ∃ path ∈ paths, s.kernel.Visits path d) s t := by
  induction paths generalizing s with
  | nil => exact ⟨s, rfl, (ScanTo.refl hwf hsane).congr fun d _ => by simp⟩
  | cons path paths ih =>
    obtain ⟨t, hst, hscan⟩ := watchSubtree_scan (N := N) hroots ht hwf hsane path
    obtain ⟨u, htu, hscan'⟩ := ih (hscan.scan.tree ht) hscan.wf hscan.scan.sane
    refine ⟨u, ?_, (hscan.trans hscan').congr fun d _ => ?_⟩
    · rw [List.foldlM_cons, hst]
      exact htu
    · simp only [List.exists_mem_cons_iff, Fs.Visits, hscan.scan.dirs_eq]

/-- A rebuild watches all directories, whatever the cache, the watches and the queue were before. -/
theorem rebuild_scan (hroots : Roots roots) (ht : Tree roots s.kernel)
    (hroot : ∀ d ∈ s.kernel.dirs, d.path ∈ roots → some d.path ∈ s.rootDirPaths) (fd : Int) :
    ∃ t, reinitialize (fsKernel N) s fd = .ok t ∧ t.rootDirPaths = s.rootDirPaths ∧ t.cache.WF ∧
      t.kernel.queue = [] ∧ t.kernel.dirs = s.kernel.dirs ∧ Tree roots t.kernel ∧
      Tracks roots t.cache.look [] t.kernel := by
  let k : Fs := { s.kernel with
    marks := []
    lastWd := 0
    queue := [] }
  let s' : State Fs := { s with
    kernel := k
    inotifyFd := 3
    cache := .freeCache
    halfZapped := false }
  have hlook : s'.cache.look = fun _ => none := Cache.look_freeCache
  have htree : Tree roots s'.kernel := ⟨ht.ino_inj, ht.path_inj, ht.ino_lt, ht.path_lt, ht.closed⟩
  have hsane : Sane s'.cache.look s'.kernel := by
    rw [hlook]
    exact ⟨⟨nofun, nofun, nofun, nofun⟩, nofun, nofun⟩
  obtain ⟨t, hst, hscan⟩ := watchSubtree_fold (N := N) hroots s.rootDirPaths.reduceOption htree
    Cache.wf_freeCache hsane
  have hrun : reinitialize (fsKernel N) s fd =
      s.rootDirPaths.reduceOption.foldlM (watchSubtree (fsKernel N)) s' := by
    unfold reinitialize
    split <;> rfl
  have hdirs := hscan.scan.dirs_eq
  refine ⟨t, hrun.trans hst, by rw [hscan.vars], hscan.wf, by rw [hscan.scan.frame], hdirs,
    hscan.scan.tree htree, hscan.scan.sane.marks, fun wd path => ?_, trivial, trivial, trivial,
    fun d hd hnone => ?_, hscan.scan.sane.bound⟩
  · rw [replay, List.foldl_nil, hscan.scan.view, hlook]
    constructor
    · rintro (hp | ⟨m, hm, -, hwd, d, hd, hdm, hdp⟩)
      · cases hp
      · exact ⟨d, hdirs ▸ hd, hdp, m, hm, hdm.symm, hwd⟩
    · rintro ⟨d, hd, hdp, m, hm, hmd, hwd⟩
      exact .inr ⟨m, hm, List.not_mem_nil, hwd, d, hdirs ▸ hd, hmd.symm, hdp⟩
  · rw [hdirs] at hd
    obtain ⟨e, he, hr, hu⟩ := htree.exists_root hd
    obtain ⟨m, hm, hmd⟩ := hscan.scan.covers d hd
      ⟨e.path, List.reduceOption_mem_iff.mpr (hroot e he hr), ⟨e, he, rfl⟩, hu⟩
    exact absurd hmd (markOf_eq_none.mp hnone m hm)

/-- When the monitor starts, it watches all directories. -/
theorem reinitialize_scan (hroots : Roots roots) (ht : Tree roots s.kernel)
    (hpaths : s.rootDirPaths = roots.map some) (h : reinitialize (fsKernel N) s (-1) = .ok t) :
    t.rootDirPaths = s.rootDirPaths ∧ t.cache.WF ∧ t.kernel.queue = [] ∧ Tree roots t.kernel ∧
      Tracks roots t.cache.look [] t.kernel := by
  obtain ⟨u, hu, hroot, hwf, hqueue, -, htree, htracks⟩ := rebuild_scan (N := N) hroots ht
    (fun d _ hr => hpaths ▸ List.mem_map_of_mem hr) (-1)
  obtain rfl : u = t := Except.ok.inj (hu.symm.trans h)
  exact ⟨hroot, hwf, hqueue, htree, htracks⟩

end Tlpi.InotifyDtree
