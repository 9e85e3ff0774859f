import Mathlib.Logic.Relation
import Tlpi.Inotify.Dtree

/-!
# The watch cache of `inotify_dtree.c`

What the functions of the program can do to the watch cache, as a relation, and the well-formedness
of the cache, which every such change keeps.
-/

namespace Tlpi.InotifyDtree

@[simp] theorem Watch.rewrite_wd (fullPath newPrefix : CString) (w : Watch) :
    (w.rewrite fullPath newPrefix).wd = w.wd := by
  rw [Watch.rewrite]
  split <;> rfl

theorem snprintf_of_lt {size : Nat} {text : CString} (h : text.length < size) :
    snprintf size text = text := List.take_of_length_le (Nat.le_sub_one_of_lt h)

theorem strncpy_of_le {size : Nat} {text : CString} (h : text.length ≤ size) :
    strncpy size text = text := List.take_of_length_le h

theorem snprintf_ne_nil {size : Nat} {text : CString} (hs : 2 ≤ size) (ht : text ≠ []) :
    snprintf size text ≠ [] := by
  simp only [snprintf, ne_eq, List.take_eq_nil_iff, ht, or_false]
  omega

theorem strncpy_ne_nil {size : Nat} {text : CString} (hs : 1 ≤ size) (ht : text ≠ []) :
    strncpy size text ≠ [] := by
  simp only [strncpy, ne_eq, List.take_eq_nil_iff, ht, or_false]
  omega

theorem Watch.rewrite_path_eq_nil {fullPath newPrefix : CString} (hf : fullPath ≠ [])
    (hn : newPrefix ≠ []) (w : Watch) : (w.rewrite fullPath newPrefix).path = [] ↔ w.path = [] := by
  rw [Watch.rewrite]
  split
  case isTrue h =>
    have hpath : w.path ≠ [] := by
      intro hnil
      rw [isUnder, hnil, Bool.and_eq_true, List.isPrefixOf_iff_prefix, List.prefix_nil] at h
      exact hf h.1
    have hnew : newPrefix ++ w.path.drop fullPath.length ≠ [] := by simp [hn]
    have := strncpy_ne_nil (by decide : 1 ≤ PATH_MAX)
      (snprintf_ne_nil (by decide : 2 ≤ PATH_MAX) hnew)
    simp only [this, hpath]
  case isFalse => rfl

namespace Cache

/-- The cache is an array of `cacheSize` slots, a multiple of `ALLOC_INCR`; exactly the unused slots
have an empty path; no watch descriptor is in two slots. -/
structure WF (c : Cache) : Prop where
  cacheSize_eq : c.cacheSize = c.wlCache.length
  dvd : ALLOC_INCR ∣ c.cacheSize
  unused_or_pos : ∀ w ∈ c.wlCache, w.wd = -1 ∨ 1 ≤ w.wd
  unused_iff : ∀ w ∈ c.wlCache, w.wd = -1 ↔ w.path = []
  wd_inj : ∀ {i j : Nat} {v w : Watch}, c.wlCache[i]? = some v → c.wlCache[j]? = some w →
    0 ≤ v.wd → v.wd = w.wd → i = j

/-- The changes that the functions of the program make to the cache. -/
inductive Step : Cache → Cache → Prop
  | free {c} : Step c freeCache
  | grow {c} : Step c c.findEmptyCacheSlot.2
  | add {c wd pathname} : 1 ≤ wd → pathname ≠ [] → pathname.length < PATH_MAX →
    c.findWatch wd = none → Step c (c.addWatchToCache wd pathname)
  | clear {c slot} : slot < c.wlCache.length → Step c (c.markCacheSlotEmpty slot)
  | rewrite {c oldPathPrefix oldName newPathPrefix newName} :
    Step c (c.rewriteCachedPaths oldPathPrefix oldName newPathPrefix newName)

abbrev Steps : Cache → Cache → Prop := Relation.ReflTransGen Step

theorem WF.slots_eq {c : Cache} (h : c.WF) : c.slots = c.wlCache := by
  rw [slots, h.cacheSize_eq, List.take_length]

theorem WF.findWatch_some {c : Cache} (h : c.WF) {wd : Int} {j : Nat}
    (hj : c.findWatch wd = some j) : ∃ w, c.wlCache[j]? = some w ∧ w.wd = wd := by
  rw [findWatch, h.slots_eq, List.findIdx?_eq_some_iff_getElem] at hj
  obtain ⟨hlt, heq, -⟩ := hj
  exact ⟨_, List.getElem?_eq_getElem hlt, by simpa using heq⟩

theorem WF.findWatch_none {c : Cache} (h : c.WF) {wd : Int} :
    c.findWatch wd = none ↔ ∀ w ∈ c.wlCache, w.wd ≠ wd := by
  rw [findWatch, h.slots_eq, List.findIdx?_eq_none_iff]
  simp

theorem wf_freeCache : freeCache.WF where
  cacheSize_eq := rfl
  dvd := Nat.dvd_zero _
  unused_or_pos := by simp [freeCache]
  unused_iff := by simp [freeCache]
  wd_inj := by simp [freeCache]

/-- A slot may get any contents that keep the slot and the distinctness of descriptors right. -/
theorem WF.set {c : Cache} (h : c.WF) {slot : Nat} {w : Watch}
    (hpos : w.wd = -1 ∨ 1 ≤ w.wd) (hiff : w.wd = -1 ↔ w.path = [])
    (hnew : 0 ≤ w.wd → ∀ v ∈ c.wlCache, v.wd ≠ w.wd) :
    WF { c with wlCache := c.wlCache.set slot w } where
  cacheSize_eq := by simpa using h.cacheSize_eq
  dvd := h.dvd
  unused_or_pos v hv := by
    rcases List.mem_or_eq_of_mem_set hv with hv | rfl
    · exact h.unused_or_pos v hv
    · exact hpos
  unused_iff v hv := by
    rcases List.mem_or_eq_of_mem_set hv with hv | rfl
    · exact h.unused_iff v hv
    · exact hiff
  wd_inj {i j v v'} hi hj h0 heq := by
    rw [List.getElem?_set] at hi hj
    split at hi <;> split at hj
    · exact ‹slot = i›.symm.trans ‹slot = j›
    · split at hi
      · cases hi
        exact absurd heq.symm (hnew h0 v' (List.mem_of_getElem? hj))
      · cases hi
    · split at hj
      · cases hj
        exact absurd heq (hnew (heq ▸ h0) v (List.mem_of_getElem? hi))
      · cases hj
    · exact h.wd_inj hi hj h0 heq

theorem WF.markCacheSlotEmpty {c : Cache} (h : c.WF) (slot : Nat) :
    (c.markCacheSlotEmpty slot).WF :=
  h.set (w := .empty) (.inl rfl) (by simp [Watch.empty]) (fun h0 => absurd h0 (by decide))

theorem WF.findEmptyCacheSlot {c : Cache} (h : c.WF) :
    c.findEmptyCacheSlot.2.WF ∧
      ∀ wd : Int, wd ≠ -1 → (∀ w ∈ c.wlCache, w.wd ≠ wd) →
        ∀ w ∈ c.findEmptyCacheSlot.2.wlCache, w.wd ≠ wd := by
  rw [Cache.findEmptyCacheSlot]
  split
  · exact ⟨h, fun _ _ hw => hw⟩
  · refine ⟨⟨?_, ?_, ?_, ?_, ?_⟩, ?_⟩
    · simp [h.cacheSize_eq]
    · exact Nat.dvd_add h.dvd (Nat.dvd_refl _)
    · intro w hw
      rcases List.mem_append.mp hw with hw | hw
      · exact h.unused_or_pos w hw
      · exact .inl (by rw [List.eq_of_mem_replicate hw]; rfl)
    · intro w hw
      rcases List.mem_append.mp hw with hw | hw
      · exact h.unused_iff w hw
      · rw [List.eq_of_mem_replicate hw]
        simp [Watch.empty]
    · intro i j v w hi hj h0 heq
      have hold : ∀ {i : Nat} {v : Watch}, 0 ≤ v.wd →
          (c.wlCache ++ List.replicate ALLOC_INCR .empty)[i]? = some v →
          c.wlCache[i]? = some v := by
        intro i v h0 hi
        rw [List.getElem?_append] at hi
        split at hi
        · exact hi
        · rw [List.eq_of_mem_replicate (List.mem_of_getElem? hi)] at h0
          exact absurd h0 (by decide)
      exact h.wd_inj (hold h0 hi) (hold (heq ▸ h0) hj) h0 heq
    · intro wd hwd hw w hmem
      rcases List.mem_append.mp hmem with hmem | hmem
      · exact hw w hmem
      · rw [List.eq_of_mem_replicate hmem]
        exact hwd.symm

theorem WF.addWatchToCache {c : Cache} (h : c.WF) {wd : Int} {pathname : CString} (hwd : 1 ≤ wd)
    (hp : pathname ≠ []) (hnew : c.findWatch wd = none) : (c.addWatchToCache wd pathname).WF := by
  obtain ⟨hwf, hmem⟩ := h.findEmptyCacheSlot
  refine hwf.set (w := ⟨wd, strncpy PATH_MAX pathname⟩) (.inr hwd) ?_ ?_
  · simp only [strncpy, List.take_eq_nil_iff, hp, or_false]
    simp only [PATH_MAX]
    omega
  · exact fun _ => hmem wd (by omega) (h.findWatch_none.mp hnew)

theorem WF.rewriteCachedPaths {c : Cache} (h : c.WF)
    (oldPathPrefix oldName newPathPrefix newName : CString) :
    (c.rewriteCachedPaths oldPathPrefix oldName newPathPrefix newName).WF := by
  have hne : ∀ p n : CString, snprintf PATH_MAX (p ++ '/' :: n) ≠ [] :=
    fun p n => snprintf_ne_nil (by decide) (by simp)
  simp only [Cache.rewriteCachedPaths, h.slots_eq, h.cacheSize_eq, List.drop_length,
    List.append_nil]
  refine ⟨by simp, h.cacheSize_eq ▸ h.dvd, ?_, ?_, ?_⟩
  · simpa using h.unused_or_pos
  · simpa [Watch.rewrite_path_eq_nil (hne _ _) (hne _ _)] using h.unused_iff
  · intro i j v w hi hj
    simp only [List.getElem?_map, Option.map_eq_some_iff] at hi hj
    obtain ⟨v, hi, rfl⟩ := hi
    obtain ⟨w, hj, rfl⟩ := hj
    simpa using h.wd_inj hi hj

theorem Step.wf {c c' : Cache} (h : Step c c') (hc : c.WF) : c'.WF := by
  cases h with
  | free => exact wf_freeCache
  | grow => exact hc.findEmptyCacheSlot.1
  | add hwd hp _ hnew => exact hc.addWatchToCache hwd hp hnew
  | clear => exact hc.markCacheSlotEmpty _
  | rewrite => exact hc.rewriteCachedPaths ..

theorem Steps.wf {c c' : Cache} (h : Steps c c') (hc : c.WF) : c'.WF := by
  induction h with
  | refl => exact hc
  | tail _ hs ih => exact hs.wf ih

end Cache

end Tlpi.InotifyDtree
