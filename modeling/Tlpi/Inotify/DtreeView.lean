import Mathlib.Logic.Function.Basic
import Tlpi.Lib.SepPath
import Tlpi.Inotify.DtreeCache

/-!
# The cache as a function

A well-formed cache is a partial function from watch descriptors to pathnames. Here is what the
functions of `inotify_dtree.c` do to it.
-/

namespace Tlpi.InotifyDtree

abbrev View := Int → Option CString

/-- The pathname that the cache holds for a watch descriptor. -/
def Cache.look (c : Cache) : View := fun wd =>
  if wd = -1 then none else (c.wlCache.find? (·.wd == wd)).map (·.path)

theorem View.ext {M M' : View} (h : ∀ x p, M x = some p ↔ M' x = some p) : M = M' :=
  funext fun x => Option.ext (h x)

theorem isUnder_iff {pn path : CString} : isUnder pn path = true ↔ Under '/' pn path := by
  rw [isUnder, Bool.and_eq_true, List.isPrefixOf_iff_prefix]
  constructor
  · rintro ⟨⟨t, rfl⟩, h⟩
    refine ⟨t, rfl, ?_⟩
    rw [List.drop_left] at h
    cases t with
    | nil => exact .inl rfl
    | cons a t => exact .inr ⟨t, by simpa using h⟩
  · rintro ⟨t, rfl, rfl | ⟨u, rfl⟩⟩
    · simp
    · exact ⟨List.prefix_append .., by simp⟩

/-- The pathname after a rename of `fullPath` to `newPrefix`. -/
def rewritePath (fullPath newPrefix path : CString) : CString :=
  if isUnder fullPath path then
    strncpy PATH_MAX (snprintf PATH_MAX (newPrefix ++ path.drop fullPath.length))
  else path

theorem rewritePath_of_under {old new path : CString} (hu : Under '/' old path)
    (hlen : (new ++ path.drop old.length).length < PATH_MAX) :
    rewritePath old new path = new ++ path.drop old.length := by
  rw [rewritePath, if_pos (isUnder_iff.mpr hu), snprintf_of_lt hlen,
    strncpy_of_le (Nat.le_of_lt hlen)]

theorem Watch.rewrite_eq (fullPath newPrefix : CString) (w : Watch) :
    w.rewrite fullPath newPrefix = ⟨w.wd, rewritePath fullPath newPrefix w.path⟩ := by
  rw [Watch.rewrite, rewritePath]
  split <;> rfl

namespace Cache

variable {c : Cache}

theorem WF.look_iff (h : c.WF) {x : Int} {p : CString} :
    c.look x = some p ↔ x ≠ -1 ∧ ⟨x, p⟩ ∈ c.wlCache := by
  rw [look]
  split
  · simp_all
  · next hx =>
    rw [Option.map_eq_some_iff]
    refine ⟨?_, fun ⟨_, hmem⟩ => ?_⟩
    · rintro ⟨w, hw, rfl⟩
      have hwd : w.wd = x := by simpa using List.find?_some hw
      exact ⟨hx, hwd ▸ List.mem_of_find?_eq_some hw⟩
    · obtain ⟨w, hw⟩ : ∃ w, c.wlCache.find? (·.wd == x) = some w := by
        rw [← Option.isSome_iff_exists, List.find?_isSome]
        exact ⟨_, hmem, by simp⟩
      refine ⟨w, hw, ?_⟩
      have hwd : w.wd = x := by simpa using List.find?_some hw
      obtain ⟨i, hi⟩ := List.mem_iff_getElem?.mp (List.mem_of_find?_eq_some hw)
      obtain ⟨j, hj⟩ := List.mem_iff_getElem?.mp hmem
      have hpos : 0 ≤ w.wd := by
        have := (h.unused_or_pos w (List.mem_of_find?_eq_some hw)).resolve_left (hwd ▸ hx)
        omega
      obtain rfl := h.wd_inj hi hj hpos hwd
      rw [hi] at hj
      cases hj
      rfl

theorem WF.pathnameInCache_iff (h : c.WF) {path : CString} :
    c.pathnameInCache path = true ↔ ∃ x, c.look x = some path := by
  rw [pathnameInCache, pathnameToCacheSlot, h.slots_eq, List.findIdx?_isSome, List.any_eq_true]
  refine ⟨fun ⟨w, hw, hp⟩ => ⟨w.wd, h.look_iff.mpr ?_⟩, fun ⟨x, hx⟩ => ?_⟩
  · rw [Bool.and_eq_true, decide_eq_true_iff, beq_iff_eq] at hp
    obtain ⟨h0, rfl⟩ := hp
    exact ⟨by omega, hw⟩
  · obtain ⟨hne, hmem⟩ := h.look_iff.mp hx
    have hx : 1 ≤ x := (h.unused_or_pos _ hmem).resolve_left hne
    exact ⟨_, hmem, by simp only [beq_self_eq_true, Bool.and_true, decide_eq_true_iff]; omega⟩

theorem WF.findWatch_look (h : c.WF) {wd : Int} (hwd : 1 ≤ wd) {p : CString}
    (hp : c.look wd = some p) :
    ∃ j, c.findWatch wd = some j ∧ c.wlCache[j]? = some ⟨wd, p⟩ := by
  have hmem := (h.look_iff.mp hp).2
  cases hj : c.findWatch wd with
  | none => exact absurd rfl (h.findWatch_none.mp hj _ hmem)
  | some j =>
    obtain ⟨w, hw, rfl⟩ := h.findWatch_some hj
    refine ⟨j, rfl, ?_⟩
    have : c.look w.wd = some w.path := h.look_iff.mpr ⟨by omega, List.mem_of_getElem? hw⟩
    obtain rfl := Option.some.inj (this.symm.trans hp)
    exact hw

theorem WF.findWatch_eq_none (h : c.WF) {wd : Int} (hwd : wd ≠ -1) :
    c.findWatch wd = none ↔ c.look wd = none := by
  rw [h.findWatch_none, look, if_neg hwd, Option.map_eq_none_iff, List.find?_eq_none]
  simp

theorem WF.one_le_of_look (h : c.WF) {x : Int} {p : CString} (hx : c.look x = some p) : 1 ≤ x := by
  obtain ⟨hne, hmem⟩ := h.look_iff.mp hx
  exact (h.unused_or_pos _ hmem).resolve_left hne

theorem look_freeCache : freeCache.look = fun _ => none := by
  funext x
  simp [look, freeCache]

theorem WF.look_rewriteCachedPaths (h : c.WF) (p n p' n' : CString) :
    (c.rewriteCachedPaths p n p' n').look = fun x => (c.look x).map
      (rewritePath (snprintf PATH_MAX (p ++ '/' :: n)) (snprintf PATH_MAX (p' ++ '/' :: n'))) := by
  funext x
  simp only [look, Cache.rewriteCachedPaths, h.slots_eq, h.cacheSize_eq, List.drop_length,
    List.append_nil, List.find?_map, Function.comp_def, Watch.rewrite_wd]
  split
  · rfl
  · simp [Function.comp_def, Watch.rewrite_eq]

theorem mem_set_iff {l : List Watch} {j : Nat} (hj : j < l.length) {v w : Watch} :
    v ∈ l.set j w ↔ v = w ∨ ∃ i, i ≠ j ∧ l[i]? = some v := by
  rw [List.mem_iff_getElem?]
  refine ⟨fun ⟨i, hi⟩ => ?_, ?_⟩
  · rw [List.getElem?_set] at hi
    split at hi
    · exact .inl (Option.some.inj hi).symm
    · exact .inr ⟨i, fun h => ‹¬j = i› h.symm, hi⟩
  · rintro (rfl | ⟨i, hne, hi⟩)
    · exact ⟨j, by simp [hj]⟩
    · exact ⟨i, by rw [List.getElem?_set_ne hne.symm, hi]⟩

theorem WF.look_markCacheSlotEmpty (h : c.WF) {slot : Nat} {w : Watch}
    (hw : c.wlCache[slot]? = some w) (hwd : w.wd ≠ -1) :
    (c.markCacheSlotEmpty slot).look = Function.update c.look w.wd none := by
  have hslot := (List.getElem?_eq_some_iff.mp hw).1
  have hpos : 0 ≤ w.wd := by
    have := (h.unused_or_pos w (List.mem_of_getElem? hw)).resolve_left hwd
    omega
  apply View.ext
  intro x p
  rw [(h.markCacheSlotEmpty slot).look_iff, Function.update_apply, Cache.markCacheSlotEmpty,
    mem_set_iff hslot]
  constructor
  · rintro ⟨hx, heq | ⟨i, hi, hmem⟩⟩
    · exact absurd (congrArg Watch.wd heq) hx
    · rw [if_neg, h.look_iff]
      · exact ⟨hx, List.mem_of_getElem? hmem⟩
      · exact fun heq => hi (h.wd_inj hw hmem hpos heq.symm).symm
  · intro hp
    split at hp
    · cases hp
    · next hne =>
      obtain ⟨hx, hmem⟩ := h.look_iff.mp hp
      obtain ⟨i, hi⟩ := List.mem_iff_getElem?.mp hmem
      refine ⟨hx, .inr ⟨i, ?_, hi⟩⟩
      rintro rfl
      rw [hw] at hi
      exact hne (congrArg Watch.wd (Option.some.inj hi)).symm

/-- A free slot is found, and growing the cache adds only unused slots. -/
theorem WF.findEmptyCacheSlot_free (h : c.WF) :
    (∃ w, c.findEmptyCacheSlot.2.wlCache[c.findEmptyCacheSlot.1]? = some w ∧ w.wd = -1) ∧
      ∀ v : Watch, v.wd ≠ -1 → (v ∈ c.findEmptyCacheSlot.2.wlCache ↔ v ∈ c.wlCache) := by
  rw [Cache.findEmptyCacheSlot]
  split
  · next j hj => exact ⟨h.findWatch_some hj, fun _ _ => .rfl⟩
  · refine ⟨⟨.empty, ?_, rfl⟩, fun v hv => ?_⟩
    · rw [h.cacheSize_eq, List.getElem?_append_right (Nat.le_refl _), Nat.sub_self]
      rfl
    · refine ⟨fun hmem => (List.mem_append.mp hmem).resolve_right fun hr => ?_,
        fun hmem => List.mem_append_left _ hmem⟩
      rw [List.eq_of_mem_replicate hr] at hv
      exact hv rfl

theorem WF.look_addWatchToCache (h : c.WF) {wd : Int} {pathname : CString} (hwd : 1 ≤ wd)
    (hne : pathname ≠ []) (hlen : pathname.length < PATH_MAX) (hnew : c.findWatch wd = none) :
    (c.addWatchToCache wd pathname).look = Function.update c.look wd (some pathname) := by
  obtain ⟨⟨w, hw, hfree⟩, hmem⟩ := h.findEmptyCacheSlot_free
  have hslot := (List.getElem?_eq_some_iff.mp hw).1
  have hcopy : strncpy PATH_MAX pathname = pathname := List.take_of_length_le (by omega)
  apply View.ext
  intro x p
  rw [(h.addWatchToCache hwd hne hnew).look_iff, Function.update_apply]
  simp only [Cache.addWatchToCache, mem_set_iff hslot, hcopy]
  constructor
  · rintro ⟨hx, heq | ⟨i, hi, hv⟩⟩
    · cases heq
      rw [if_pos rfl]
    · have hold := (hmem _ hx).mp (List.mem_of_getElem? hv)
      rw [if_neg (h.findWatch_none.mp hnew _ hold), h.look_iff]
      exact ⟨hx, hold⟩
  · intro hp
    split at hp
    · next heq =>
      cases hp
      subst heq
      exact ⟨by omega, .inl rfl⟩
    · obtain ⟨hx, hold⟩ := h.look_iff.mp hp
      obtain ⟨i, hi⟩ := List.mem_iff_getElem?.mp ((hmem _ hx).mpr hold)
      refine ⟨hx, .inr ⟨i, ?_, hi⟩⟩
      rintro rfl
      rw [hw] at hi
      cases hi
      exact hx hfree

end Cache

end Tlpi.InotifyDtree
