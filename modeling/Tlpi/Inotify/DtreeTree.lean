import Tlpi.Inotify.DtreeWorld
import Tlpi.Inotify.DtreeView

/-!
# The directory trees

The directories of the file system form trees below the roots, and `mkdir`, `rmdir` and `rename` keep
them so.
-/

namespace Tlpi.InotifyDtree

variable {roots : List CString} {fs fs' : Fs}

/-- The roots are pathnames none of which is below another. One that ends in a slash would not be the
pathname that `nftw` reports. -/
structure Roots (roots : List CString) : Prop where
  ne_nil : ∀ r ∈ roots, r ≠ []
  no_slash : ∀ r ∈ roots, r.getLast? ≠ some '/'
  eq_of_under : ∀ r ∈ roots, ∀ r' ∈ roots, Under '/' r r' → r = r'

/-- Every directory is a root or has its parent in the file system; inodes and pathnames are unique,
and pathnames are shorter than `PATH_MAX`. -/
structure Tree (roots : List CString) (fs : Fs) : Prop where
  ino_inj : ∀ d ∈ fs.dirs, ∀ e ∈ fs.dirs, d.ino = e.ino → d = e
  path_inj : ∀ d ∈ fs.dirs, ∀ e ∈ fs.dirs, d.path = e.path → d = e
  ino_lt : ∀ d ∈ fs.dirs, d.ino < fs.nextIno
  path_lt : ∀ d ∈ fs.dirs, d.path.length < PATH_MAX
  closed : ∀ d ∈ fs.dirs, d.path ∈ roots ∨
    ∃ p ∈ fs.dirs, ∃ name, '/' ∉ name ∧ d.path = p.path ++ '/' :: name

theorem dirAt_mem {path : CString} {d : Dir} (h : fs.dirAt path = some d) :
    d ∈ fs.dirs ∧ d.path = path :=
  ⟨List.mem_of_find?_eq_some h, by simpa using List.find?_some h⟩

theorem dirAt_eq_none {path : CString} : fs.dirAt path = none ↔ ∀ d ∈ fs.dirs, d.path ≠ path := by
  simp [Fs.dirAt]

namespace Tree

variable (h : Tree roots fs)
include h

theorem dirAt_path {d : Dir} (hd : d ∈ fs.dirs) : fs.dirAt d.path = some d := by
  cases hat : fs.dirAt d.path with
  | none => exact absurd rfl (dirAt_eq_none.mp hat d hd)
  | some e =>
    obtain ⟨he, heq⟩ := dirAt_mem hat
    rw [h.path_inj e he d hd heq]

/-- Every directory is in the tree of a root that exists. -/
theorem exists_root {d : Dir} (hd : d ∈ fs.dirs) :
    ∃ e ∈ fs.dirs, e.path ∈ roots ∧ Under '/' e.path d.path := by
  induction hn : d.path.length using Nat.strongRecOn generalizing d with
  | ind n ih =>
    obtain hr | ⟨p, hp, name, -, hpath⟩ := h.closed d hd
    · exact ⟨d, hd, hr, .refl ..⟩
    · obtain ⟨e, he, hr, hu⟩ := ih p.path.length (by rw [← hn, hpath]; simp) hp rfl
      exact ⟨e, he, hr, hpath ▸ hu.trans (.child ..)⟩

/-- A pathname between a root and a directory is that of a directory. -/
theorem exists_above (hroots : Roots roots) {d : Dir} (hd : d ∈ fs.dirs) {F r : CString}
    (hr : r ∈ roots) (hrF : Under '/' r F) (hF : Under '/' F d.path) : ∃ e ∈ fs.dirs, e.path = F := by
  induction hn : d.path.length using Nat.strongRecOn generalizing d with
  | ind n ih =>
    obtain hd' | ⟨p, hp, name, hname, hpath⟩ := h.closed d hd
    · have := hroots.eq_of_under r hr d.path hd' (hrF.trans hF)
      exact ⟨d, hd, (this ▸ hrF).antisymm hF⟩
    · rw [hpath] at hF
      rcases hF.of_child hname with rfl | hF
      · exact ⟨d, hd, hpath⟩
      · exact ih p.path.length (by rw [← hn, hpath]; simp) hp hF rfl

/-- Neither a child of a directory nor anything above it is a root, but for what is above the
directory. -/
theorem not_under_root (hroots : Roots roots) {p : Dir} (hp : p ∈ fs.dirs) {name r : CString}
    (hr : r ∈ roots) : ¬Under '/' (p.path ++ '/' :: name) r := by
  intro hu
  obtain ⟨e, -, her, hep⟩ := h.exists_root hp
  have heq := hroots.eq_of_under _ her r hr ((hep.trans (.child ..)).trans hu)
  exact Under.not_child '/' p.path name (hu.trans (heq ▸ hep))

theorem path_ne_nil (hroots : Roots roots) {d : Dir} (hd : d ∈ fs.dirs) : d.path ≠ [] := by
  obtain hr | ⟨p, -, name, -, hpath⟩ := h.closed d hd
  · exact hroots.ne_nil _ hr
  · simp [hpath]

end Tree

/-! ### The operations -/

theorem mkdir_cases {parent name : CString} (h : fs.mkdir parent name = some fs') :
    ∃ p ∈ fs.dirs, p.path = parent ∧ Fs.ValidName name ∧
      (∀ d ∈ fs.dirs, d.path ≠ parent ++ '/' :: name) ∧ fs' = { fs with
        dirs := fs.dirs ++ [⟨fs.nextIno, parent ++ '/' :: name⟩]
        nextIno := fs.nextIno + 1
        queue := fs.queue ++ ((fs.markOf p.ino).map fun m => .create m.wd name).toList } := by
  obtain ⟨p, hp, h⟩ := Option.bind_eq_some_iff.mp h
  rw [Option.ite_none_right_eq_some] at h
  obtain ⟨⟨hname, hnew⟩, h⟩ := h
  exact ⟨p, (dirAt_mem hp).1, (dirAt_mem hp).2, hname, dirAt_eq_none.mp hnew, (Option.some.inj h).symm⟩

theorem rmdir_cases {path : CString} (h : fs.rmdir path = some fs') :
    ∃ d ∈ fs.dirs, d.path = path ∧ fs.IsEmpty path ∧ fs' = fs.evict d.ino := by
  obtain ⟨d, hd, h⟩ := Option.bind_eq_some_iff.mp h
  rw [Option.ite_none_right_eq_some] at h
  exact ⟨d, (dirAt_mem hd).1, (dirAt_mem hd).2, h.1, (Option.some.inj h.2).symm⟩

/-- The directory that a rename replaces loses its inode. -/
def Fs.evictAll (fs : Fs) (t : Option Dir) : Fs := t.elim fs fun t => fs.evict t.ino

/-- A rename that does something. -/
theorem rename_cases {parent name parent' name' : CString}
    (h : fs.rename parent name parent' name' = some fs') :
    (parent ++ '/' :: name = parent' ++ '/' :: name' ∧ fs' = fs) ∨
    ∃ p ∈ fs.dirs, p.path = parent ∧ ∃ p' ∈ fs.dirs, p'.path = parent' ∧
      (∃ d ∈ fs.dirs, d.path = parent ++ '/' :: name) ∧ '/' ∉ name' ∧
      ¬Under '/' (parent ++ '/' :: name) (parent' ++ '/' :: name') ∧
      ((fs.dirAt (parent' ++ '/' :: name')).isSome → fs.IsEmpty (parent' ++ '/' :: name')) ∧
      fs' = (fs.move p p' name name').evictAll (fs.dirAt (parent' ++ '/' :: name')) := by
  obtain ⟨p, hp, h⟩ := Option.bind_eq_some_iff.mp h
  obtain ⟨p', hp', h⟩ := Option.bind_eq_some_iff.mp h
  rw [Option.ite_none_right_eq_some] at h
  obtain ⟨⟨-, hname', hold⟩, h⟩ := h
  split at h
  · next heq => exact .inl ⟨heq, (Option.some.inj h).symm⟩
  · rw [Option.ite_none_left_eq_some] at h
    obtain ⟨hunder, h⟩ := h
    obtain ⟨d, hd⟩ := Option.isSome_iff_exists.mp hold
    rw [isUnder_iff] at hunder
    refine .inr ⟨p, (dirAt_mem hp).1, (dirAt_mem hp).2, p', (dirAt_mem hp').1, (dirAt_mem hp').2,
      ⟨d, dirAt_mem hd⟩, hname'.2.1, hunder, ?_⟩
    cases ht : fs.dirAt (parent' ++ '/' :: name') with
    | none =>
      rw [ht] at h
      exact ⟨nofun, (Option.some.inj h).symm⟩
    | some t =>
      rw [ht] at h
      simp only [Option.ite_none_right_eq_some] at h
      exact ⟨fun _ => h.1, (Option.some.inj h.2).symm⟩

@[simp] theorem Dir.move_ino (old new : CString) (d : Dir) : (d.move old new).ino = d.ino := by
  rw [Dir.move]
  split <;> rfl

theorem Dir.move_under {old new : CString} {d : Dir} (h : Under '/' old d.path) :
    (d.move old new).path = new ++ d.path.drop old.length := by
  rw [Dir.move, if_pos (isUnder_iff.mpr h)]

theorem Dir.move_not_under {old new : CString} {d : Dir} (h : ¬Under '/' old d.path) :
    d.move old new = d := by
  rw [Dir.move, if_neg (by rwa [isUnder_iff])]

theorem Tree.mkdir {parent name : CString} (h : Tree roots fs)
    (hm : fs.mkdir parent name = some fs')
    (hlen : (parent ++ '/' :: name).length < PATH_MAX) : Tree roots fs' := by
  obtain ⟨p, hp, rfl, hname, hnew, rfl⟩ := mkdir_cases hm
  have hino : ∀ d ∈ fs.dirs, d.ino ≠ fs.nextIno := fun d hd => Nat.ne_of_lt (h.ino_lt d hd)
  refine ⟨fun d hd e he heq => ?_, fun d hd e he heq => ?_, fun d hd => ?_, fun d hd => ?_,
    fun d hd => ?_⟩
  · rcases List.mem_append.mp hd with hd | hd <;> rcases List.mem_append.mp he with he | he
    · exact h.ino_inj d hd e he heq
    · rw [List.mem_singleton.mp he] at heq
      exact absurd heq (hino d hd)
    · rw [List.mem_singleton.mp hd] at heq
      exact absurd heq.symm (hino e he)
    · rw [List.mem_singleton.mp hd, List.mem_singleton.mp he]
  · rcases List.mem_append.mp hd with hd | hd <;> rcases List.mem_append.mp he with he | he
    · exact h.path_inj d hd e he heq
    · rw [List.mem_singleton.mp he] at heq
      exact absurd heq (hnew d hd)
    · rw [List.mem_singleton.mp hd] at heq
      exact absurd heq.symm (hnew e he)
    · rw [List.mem_singleton.mp hd, List.mem_singleton.mp he]
  · rcases List.mem_append.mp hd with hd | hd
    · exact Nat.lt_succ_of_lt (h.ino_lt d hd)
    · rw [List.mem_singleton.mp hd]
      exact Nat.lt_succ_self _
  · rcases List.mem_append.mp hd with hd | hd
    · exact h.path_lt d hd
    · rw [List.mem_singleton.mp hd]
      exact hlen
  · rcases List.mem_append.mp hd with hd | hd
    · refine (h.closed d hd).imp_right fun ⟨q, hq, hpath⟩ => ⟨q, List.mem_append_left _ hq, hpath⟩
    · rw [List.mem_singleton.mp hd]
      exact .inr ⟨p, List.mem_append_left _ hp, name, hname.2.1, rfl⟩

theorem mem_evict {ino : Nat} {d : Dir} : d ∈ (fs.evict ino).dirs ↔ d ∈ fs.dirs ∧ d.ino ≠ ino := by
  simp [Fs.evict]

theorem Tree.rmdir {path : CString} (h : Tree roots fs) (hm : fs.rmdir path = some fs') :
    Tree roots fs' := by
  obtain ⟨t, ht, rfl, hempty, rfl⟩ := rmdir_cases hm
  refine ⟨fun d hd e he => ?_, fun d hd e he => ?_, fun d hd => ?_, fun d hd => ?_, fun d hd => ?_⟩
  · exact h.ino_inj d (mem_evict.mp hd).1 e (mem_evict.mp he).1
  · exact h.path_inj d (mem_evict.mp hd).1 e (mem_evict.mp he).1
  · exact h.ino_lt d (mem_evict.mp hd).1
  · exact h.path_lt d (mem_evict.mp hd).1
  · refine (h.closed d (mem_evict.mp hd).1).imp_right fun ⟨p, hp, name, hname, hpath⟩ =>
      ⟨p, mem_evict.mpr ⟨hp, fun hino => ?_⟩, name, hname, hpath⟩
    obtain rfl := h.ino_inj p hp t ht hino
    have hu : Under '/' p.path d.path := hpath ▸ .child ..
    have := hempty d (mem_evict.mp hd).1 (isUnder_iff.mpr hu)
    exact Under.not_child '/' p.path name (hpath ▸ this ▸ .refl ..)

/-- The directories after a rename: all but the replaced one, in their new places. -/
theorem mem_rename (h : Tree roots fs) {p p' : Dir} {name name' : CString} {e : Dir} :
    e ∈ ((fs.move p p' name name').evictAll (fs.dirAt (p'.path ++ '/' :: name'))).dirs ↔
      ∃ d ∈ fs.dirs, d.path ≠ p'.path ++ '/' :: name' ∧
        e = d.move (p.path ++ '/' :: name) (p'.path ++ '/' :: name') := by
  cases ht : fs.dirAt (p'.path ++ '/' :: name') with
  | none =>
    have hne := dirAt_eq_none.mp ht
    simp only [Fs.evictAll, Option.elim_none, Fs.move, List.mem_map]
    exact ⟨fun ⟨d, hd, he⟩ => ⟨d, hd, hne d hd, he.symm⟩, fun ⟨d, hd, _, he⟩ => ⟨d, hd, he.symm⟩⟩
  | some t =>
    obtain ⟨htm, htp⟩ := dirAt_mem ht
    simp only [Fs.evictAll, Option.elim_some, mem_evict, Fs.move, List.mem_map]
    constructor
    · rintro ⟨⟨d, hd, rfl⟩, hne⟩
      refine ⟨d, hd, fun hpath => hne ?_, rfl⟩
      rw [Dir.move_ino, h.path_inj d hd t htm (hpath.trans htp.symm)]
    · rintro ⟨d, hd, hne, rfl⟩
      refine ⟨⟨d, hd, rfl⟩, fun hino => hne ?_⟩
      rw [Dir.move_ino] at hino
      rw [h.ino_inj d hd t htm hino, htp]

/-- What the tree looks like around a rename: nothing is below the new name, and the new parent
stays where it is. -/
structure RenameIn (roots : List CString) (fs : Fs) (p' : Dir) (old name' : CString) : Prop where
  parent : p' ∈ fs.dirs
  slash : '/' ∉ name'
  not_under : ¬Under '/' old (p'.path ++ '/' :: name')
  empty : ∀ d ∈ fs.dirs, Under '/' (p'.path ++ '/' :: name') d.path → d.path = p'.path ++ '/' :: name'
  root : ∀ r ∈ roots, ¬Under '/' old r

theorem Tree.rename {p p' : Dir} {name name' : CString} (h : Tree roots fs)
    (hr : RenameIn roots fs p' (p.path ++ '/' :: name) name')
    (hlen : ∀ d ∈ fs.dirs, Under '/' (p.path ++ '/' :: name) d.path →
      (d.move (p.path ++ '/' :: name) (p'.path ++ '/' :: name')).path.length < PATH_MAX) :
    Tree roots ((fs.move p p' name name').evictAll (fs.dirAt (p'.path ++ '/' :: name'))) := by
  have hnext : ((fs.move p p' name name').evictAll (fs.dirAt (p'.path ++ '/' :: name'))).nextIno =
      fs.nextIno := by
    cases fs.dirAt (p'.path ++ '/' :: name') <;> rfl
  have hstay : p'.move (p.path ++ '/' :: name) (p'.path ++ '/' :: name') = p' :=
    Dir.move_not_under fun hu => hr.not_under (hu.trans (.child ..))
  have hpar : p'.path ≠ p'.path ++ '/' :: name' := by simp
  refine ⟨fun d hmem e hmem' heq => ?_, fun d hmem e hmem' heq => ?_, fun d hmem => ?_,
    fun d hmem => ?_, fun d hmem => ?_⟩
  · obtain ⟨d, hd, -, rfl⟩ := (mem_rename h).mp hmem
    obtain ⟨e, he, -, rfl⟩ := (mem_rename h).mp hmem'
    rw [Dir.move_ino, Dir.move_ino] at heq
    rw [h.ino_inj d hd e he heq]
  · obtain ⟨d, hd, hdn, rfl⟩ := (mem_rename h).mp hmem
    obtain ⟨e, he, hen, rfl⟩ := (mem_rename h).mp hmem'
    by_cases hdu : Under '/' (p.path ++ '/' :: name) d.path <;>
      by_cases heu : Under '/' (p.path ++ '/' :: name) e.path
    · rw [Dir.move_under hdu, Dir.move_under heu] at heq
      have := List.append_cancel_left heq
      rw [h.path_inj d hd e he (by rw [← hdu.append_drop, this, heu.append_drop])]
    · rw [Dir.move_under hdu, Dir.move_not_under heu] at heq
      exact absurd (hr.empty e he (heq ▸ hdu.drop_append _)) hen
    · rw [Dir.move_not_under hdu, Dir.move_under heu] at heq
      exact absurd (hr.empty d hd (heq ▸ heu.drop_append _)) hdn
    · rw [Dir.move_not_under hdu, Dir.move_not_under heu] at heq
      rw [h.path_inj d hd e he heq]
  · obtain ⟨d, hd, -, rfl⟩ := (mem_rename h).mp hmem
    rw [Dir.move_ino, hnext]
    exact h.ino_lt d hd
  · obtain ⟨d, hd, -, rfl⟩ := (mem_rename h).mp hmem
    by_cases hdu : Under '/' (p.path ++ '/' :: name) d.path
    · exact hlen d hd hdu
    · rw [Dir.move_not_under hdu]
      exact h.path_lt d hd
  · obtain ⟨d, hd, hdn, rfl⟩ := (mem_rename h).mp hmem
    by_cases hdu : Under '/' (p.path ++ '/' :: name) d.path
    · rw [Dir.move_under hdu]
      obtain hroot | ⟨q, hq, n, hn, hpath⟩ := h.closed d hd
      · exact absurd hdu (hr.root _ hroot)
      · rw [hpath] at hdu ⊢
        rcases hdu.of_child hn with heq | hqu
        · refine .inr ⟨p', (mem_rename h).mpr ⟨p', hr.parent, hpar, hstay.symm⟩, name', hr.slash, ?_⟩
          rw [heq, List.drop_length, List.append_nil]
        · refine .inr ⟨_, (mem_rename h).mpr ⟨q, hq, ?_, rfl⟩, n, hn, ?_⟩
          · exact fun heq => hr.not_under (heq ▸ hqu)
          · rw [Dir.move_under hqu, List.drop_append_of_le_length hqu.length_le]
            simp only [List.append_assoc]
    · rw [Dir.move_not_under hdu]
      refine (h.closed d hd).imp_right fun ⟨q, hq, n, hn, hpath⟩ => ⟨q, ?_, n, hn, hpath⟩
      have hdq : Under '/' q.path d.path := hpath ▸ .child ..
      refine (mem_rename h).mpr ⟨q, hq, fun heq => ?_,
        (Dir.move_not_under fun hqu => hdu (hqu.trans hdq)).symm⟩
      exact hdn (hr.empty d hd (heq ▸ hdq))

end Tlpi.InotifyDtree
