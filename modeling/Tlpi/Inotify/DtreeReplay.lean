import Tlpi.Inotify.DtreeWorld
import Tlpi.Inotify.DtreeView

/-!
# What the queue will do to the cache

The monitor lags behind the file system; the queue says by how much. Here an entry of the queue is
what the monitor will make of it in the cache, apart from the directories it finds in a scan, and the
conditions on a queue speak about the entries in the cache as each of them will find it.
-/

namespace Tlpi.InotifyDtree

/-- A directory entry that an event names, in the buffer of `processNextInotifyEvent`. -/
def eventPath (path name : CString) : CString := snprintf (PATH_MAX + NAME_MAX) (path ++ '/' :: name)

theorem eventPath_eq {path name : CString} (h : (path ++ '/' :: name).length < PATH_MAX) :
    eventPath path name = path ++ '/' :: name :=
  snprintf_of_lt (Nat.lt_add_right NAME_MAX h)

namespace Notice

/-- What the monitor will do to the cache for an entry, apart from a scan. -/
def apply (M : View) : Notice → View
  | renamed wd name wd' name' _ => fun x =>
    match M wd, M wd' with
    | some p, some p' => (M x).map
      (rewritePath (snprintf PATH_MAX (p ++ '/' :: name)) (snprintf PATH_MAX (p' ++ '/' :: name')))
    | _, _ => M x
  | movedFrom wd name _ => fun x =>
    match M wd with
    | some p => (M x).filter fun q => !isUnder (eventPath p name) q
    | none => M x
  | deleteSelf wd => Function.update M wd none
  | create _ _ | movedTo _ _ _ | ignored _ => M

/-- The descriptors that the monitor will look up are in the cache. No directory was renamed to
where the monitor does not watch it. -/
def Known (M : View) : Notice → Prop
  | create wd _ | movedTo wd _ _ | deleteSelf wd => (M wd).isSome
  | renamed wd _ wd' _ _ => (M wd).isSome ∧ (M wd').isSome
  | movedFrom _ _ _ => False
  | ignored _ => True

/-- The pathname that the monitor will scan if it is not in the cache. -/
def scans (M : View) : Notice → Option CString
  | create wd name | movedTo wd name _ => (M wd).map (eventPath · name)
  | _ => none

/-- The pathname that a rename takes away. -/
def moves (M : View) : Notice → Option CString
  | renamed wd name _ _ _ => (M wd).map fun p => snprintf PATH_MAX (p ++ '/' :: name)
  | _ => none

/-- The entry makes the monitor scan `F`. -/
def WillScan (M : View) (n : Notice) (F : CString) : Prop :=
  n.scans M = some F ∧ ∀ x, M x ≠ some F

theorem not_willScan {M : View} {n : Notice} (h : n.scans M = none) (F : CString) :
    ¬n.WillScan M F := by
  rintro ⟨hscans, -⟩
  rw [h] at hscans
  cases hscans

end Notice

open Notice

/-- The cache after the whole queue, apart from scans. -/
abbrev replay (M : View) (q : List Notice) : View := q.foldl Notice.apply M

/-- No entry of the queue renames a directory above or below `F`. -/
def Clear (F : CString) : View → List Notice → Prop :=
  AllAlong Notice.apply fun M n => ∀ o, n.moves M = some o → Apart '/' o F

/-- No entry of the queue makes the monitor scan a directory above or below `old`. -/
def Untouched (old : CString) : View → List Notice → Prop :=
  AllAlong Notice.apply fun M n => ∀ F, n.WillScan M F → Apart '/' F old

/-- Every scan is in the tree of one of the roots. -/
def Rooted (roots : List CString) : View → List Notice → Prop :=
  AllAlong Notice.apply fun M n => ∀ F, n.WillScan M F → ∃ r ∈ roots, Under '/' r F

/-- Some entry of the queue makes the monitor scan a directory at or above `path`. -/
def Covers (path : CString) : View → List Notice → Prop :=
  SomeAlong Notice.apply fun M n => ∃ F, n.WillScan M F ∧ Under '/' F path

/-- What a scan finds is not renamed by the entries behind it. -/
def Stable : View → List Notice → Prop
  | _, [] => True
  | M, n :: q => (∀ F, n.WillScan M F → Clear F (n.apply M) q) ∧ Stable (n.apply M) q

/-! ### Entries at the end of the queue -/

variable {M : View} {q : List Notice} {n : Notice}

theorem Covers.mono {path path' : CString} (h : Covers path M q) (hle : Under '/' path path') :
    Covers path' M q :=
  SomeAlong.mono h fun _ _ ⟨F, hF, hu⟩ => ⟨F, hF, hu.trans hle⟩

theorem Covers.append {path : CString} (h : Covers path M q) (q' : List Notice) :
    Covers path M (q ++ q') :=
  someAlong_append.mpr (.inl h)

theorem clear_of_moves {F : CString} (hq : ∀ n ∈ q, ∀ M, n.moves M = none) : Clear F M q :=
  allAlong_of_forall fun n hn M _ ho => absurd (ho.symm.trans (hq n hn M)) nofun

theorem stable_of_moves (hq : ∀ n ∈ q, ∀ M, n.moves M = none) : Stable M q := by
  induction q generalizing M with
  | nil => trivial
  | cons n q ih =>
    have hq : ∀ n ∈ q, ∀ M, n.moves M = none := fun n hn => hq n (List.mem_cons_of_mem _ hn)
    exact ⟨fun _ _ => clear_of_moves hq, ih hq⟩

/-- Entries that are no renames keep the queue stable at its end. -/
theorem Stable.append {q' : List Notice} (h : Stable M q) (hq' : ∀ n ∈ q', ∀ M, n.moves M = none) :
    Stable M (q ++ q') := by
  induction q generalizing M with
  | nil => exact stable_of_moves hq'
  | cons n q ih =>
    exact ⟨fun F hF => allAlong_append.mpr ⟨h.1 F hF, clear_of_moves hq'⟩, ih h.2⟩

/-- A rename keeps the queue stable if no scan of the queue is above or below the directory. -/
theorem Stable.append_renamed {o : CString} (h : Stable M q) (hn : ∀ M, n.scans M = none)
    (ho : ∀ o', n.moves (replay M q) = some o' → o' = o) (hu : Untouched o M q) :
    Stable M (q ++ [n]) := by
  induction q generalizing M with
  | nil => exact ⟨fun F hF => absurd (hF.1.symm.trans (hn M)) nofun, trivial⟩
  | cons e q ih =>
    refine ⟨fun F hF => allAlong_append.mpr ⟨h.1 F hF, fun o' ho' => ?_, trivial⟩, ih h.2 ho hu.2⟩
    obtain rfl := ho o' ho'
    exact (hu.1 F hF).symm

/-! ### Entries found by a scan -/

/-- The cache `M` with the new entries `E`. -/
def View.union (M E : View) : View := fun x => (M x).or (E x)

/-- `M'` has, besides the entries of `M`, new ones at or below `F`. -/
structure Extends (F : CString) (E M M' : View) : Prop where
  eq : M' = M.union E
  disjoint : ∀ x p, E x = some p → M x = none
  under : ∀ x p, E x = some p → Under '/' F p

theorem apply_eq_none {x : Int} (h : M x = none) : n.apply M x = none := by
  cases n with
  | renamed wd name wd' name' =>
    rw [Notice.apply]
    split
    · simp [h]
    · exact h
  | movedFrom wd name =>
    rw [Notice.apply]
    split
    · simp [h]
    · exact h
  | deleteSelf wd =>
    rw [Notice.apply, Function.update_apply]
    split
    · rfl
    · exact h
  | create | movedTo | ignored => exact h

theorem Extends.eq_of_isSome {F : CString} {E M' : View} (h : Extends F E M M') {x : Int}
    (hx : (M x).isSome) : M' x = M x := by
  obtain ⟨p, hp⟩ := Option.isSome_iff_exists.mp hx
  rw [h.eq, View.union, hp]
  rfl

theorem Extends.isSome {F : CString} {E M' : View} (h : Extends F E M M') {x : Int}
    (hx : (M x).isSome) : (M' x).isSome := by
  rwa [h.eq_of_isSome hx]

theorem Extends.scans_eq {F : CString} {E M' : View} (h : Extends F E M M') (hk : n.Known M) :
    n.scans M' = n.scans M := by
  cases n with
  | create wd name => rw [scans, scans, h.eq_of_isSome hk]
  | movedTo wd name => rw [scans, scans, h.eq_of_isSome hk]
  | _ => rfl

theorem Extends.moves_eq {F : CString} {E M' : View} (h : Extends F E M M') (hk : n.Known M) :
    n.moves M' = n.moves M := by
  cases n with
  | renamed wd name => rw [moves, moves, h.eq_of_isSome hk.1]
  | _ => rfl

/-- The condition under which new entries at or below `F` are left alone. -/
def LeavesAlone (F : CString) (M : View) (n : Notice) : Prop :=
  n.Known M ∧ ∀ o, n.moves M = some o → Apart '/' o F

theorem Extends.apply {F : CString} {E M' : View} (h : Extends F E M M') (hn : LeavesAlone F M n) :
    Extends F E (n.apply M) (n.apply M') := by
  refine ⟨?_, fun x p hx => apply_eq_none (h.disjoint x p hx), h.under⟩
  obtain ⟨hk, ho⟩ := hn
  cases n with
  | renamed wd name wd' name' =>
    obtain ⟨p, hp⟩ := Option.isSome_iff_exists.mp hk.1
    obtain ⟨p', hp'⟩ := Option.isSome_iff_exists.mp hk.2
    have hM := h.eq_of_isSome hk.1
    have hM' := h.eq_of_isSome hk.2
    rw [hp] at hM
    rw [hp'] at hM'
    funext x
    simp only [Notice.apply, hM, hM', hp, hp', View.union]
    rw [h.eq, View.union]
    cases hx : M x with
    | some q => rfl
    | none =>
      cases hE : E x with
      | none => rfl
      | some q =>
        have hapart := ho _ (by rw [moves, hp]; rfl)
        have : isUnder (snprintf PATH_MAX (p ++ '/' :: name)) q = false := by
          rw [← Bool.not_eq_true, isUnder_iff]
          exact hapart.symm.not_under (h.under x q hE)
        simp [rewritePath, this]
  | movedFrom => cases hk
  | deleteSelf wd =>
    funext x
    simp only [Notice.apply, View.union, Function.update_apply, h.eq]
    split
    · next hx =>
      subst hx
      cases hE : E x with
      | none => rfl
      | some q => simp [Notice.Known, h.disjoint x q hE] at hk
    · rfl
  | create | movedTo | ignored => exact h.eq

theorem Extends.willScan {F G : CString} {E M' : View} (h : Extends F E M M') (hk : n.Known M)
    (hG : n.WillScan M' G) : n.WillScan M G := by
  refine ⟨h.scans_eq hk ▸ hG.1, fun x hx => hG.2 x ?_⟩
  rw [h.eq_of_isSome (by simp [hx]), hx]

theorem Stable.extend {F : CString} {E M' : View} (h : Extends F E M M')
    (hall : AllAlong Notice.apply (LeavesAlone F) M q) (hs : Stable M q) : Stable M' q := by
  induction q generalizing M M' with
  | nil => trivial
  | cons n q ih =>
    refine ⟨fun G hG => ?_, ih (h.apply hall.1) hall.2 hs.2⟩
    refine AllAlong.transfer (R := Extends F E) (Q := LeavesAlone F)
      (fun _ _ n h hn => h.apply (n := n) hn) (fun s s' e h hn hP o ho => ?_) (h.apply hall.1) hall.2
      (hs.1 G (h.willScan hall.1.1 hG))
    exact hP o (h.moves_eq hn.1 ▸ ho)

theorem Rooted.extend {roots : List CString} {F : CString} {E M' : View} (h : Extends F E M M')
    (hall : AllAlong Notice.apply (LeavesAlone F) M q) (hr : Rooted roots M q) : Rooted roots M' q :=
  AllAlong.transfer (R := Extends F E) (Q := LeavesAlone F) (fun _ _ n h hn => h.apply (n := n) hn)
    (fun _ _ _ h hn hP G hG => hP G (h.willScan hn.1 hG)) h hall hr

theorem Covers.extend {path F : CString} {E M' : View} (h : Extends F E M M')
    (hall : AllAlong Notice.apply (LeavesAlone F) M q) (hpath : ¬Under '/' F path)
    (hc : Covers path M q) : Covers path M' q := by
  refine SomeAlong.transfer (R := Extends F E) (Q := LeavesAlone F)
    (fun _ _ n h hn => h.apply (n := n) hn)
    (fun s s' e h hn ⟨G, hG, hu⟩ => ⟨G, ⟨h.scans_eq hn.1 ▸ hG.1, fun x hx => ?_⟩, hu⟩) h hall hc
  rw [h.eq, View.union] at hx
  cases hs : s x with
  | some p =>
    rw [hs] at hx
    exact hG.2 x (hs.trans hx)
  | none =>
    rw [hs, Option.none_or] at hx
    exact hpath ((h.under x G hx).trans hu)

theorem known_extend {F : CString} {E M' : View} (h : Extends F E M M')
    (hall : AllAlong Notice.apply (LeavesAlone F) M q) : AllAlong Notice.apply Known M' q := by
  refine AllAlong.transfer (R := Extends F E) (Q := LeavesAlone F) (fun _ _ n h hn => h.apply (n := n) hn)
    (fun s s' e h hn _ => ?_) h hall hall
  cases e with
  | create wd => exact h.isSome hn.1
  | movedTo wd => exact h.isSome hn.1
  | deleteSelf wd => exact h.isSome hn.1
  | renamed wd name wd' => exact ⟨h.isSome hn.1.1, h.isSome hn.1.2⟩
  | movedFrom => exact hn.1
  | ignored => trivial

end Tlpi.InotifyDtree
