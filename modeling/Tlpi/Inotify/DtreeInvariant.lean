import Tlpi.Lib.Machine
import Tlpi.Inotify.DtreeLemmas

/-!
# The invariant of the watch cache

The machine takes the functions of `inotify_dtree.c` that touch the cache as its steps, in any order
and with any arguments; between two of them the file system and the kernel may change at will. In
every reachable state the cache is well formed, and `processNextInotifyEvent` uses `evCacheSlot` only
as the slot of the event's watch descriptor.
-/

namespace Tlpi.InotifyDtree

open Cache (Steps)

variable {κ : Type} {K : Kernel κ}

/-- The events that the kernel delivers: a queue overflow has the descriptor -1 and no other bit,
any other event has the descriptor of a watch, and `IN_IGNORED` stands without another event. -/
inductive Event.Delivered (ev : Event) : Prop
  | overflow : ev.wd = -1 → ev.mask = IN_Q_OVERFLOW → Delivered ev
  | watch : 1 ≤ ev.wd → ev.has IN_Q_OVERFLOW = false →
    (ev.has IN_IGNORED = true → ev.mask &&& ~~~IN_ISDIR = IN_IGNORED) → Delivered ev

/-- A call of a function that touches the cache, or a change in the kernel. -/
inductive Call (κ : Type)
  | traverseTree (pathname : CString) (isDir : Bool)
  | findEmptyCacheSlot
  | rewriteCachedPaths (oldPathPrefix oldName newPathPrefix newName : CString)
  | zapSubtree (path : CString)
  | markCacheSlotEmpty (slot : Nat)
  | build (oldInotifyFd : Int)
  | event (ev : Event) (nextEv : Option Event) (firstTry : Bool)
  | command (input arg₀ : CString)
  | kernel (k : κ)

/-- A call that ends the program is not a step. -/
def execCall (K : Kernel κ) (s : State κ) : Call κ → Except Stop (State κ)
  | .traverseTree pathname isDir => traverseTree K s pathname isDir
  | .findEmptyCacheSlot => .ok { s with cache := s.cache.findEmptyCacheSlot.2 }
  | .rewriteCachedPaths oldPathPrefix oldName newPathPrefix newName => .ok { s with
      cache := s.cache.rewriteCachedPaths oldPathPrefix oldName newPathPrefix newName }
  | .zapSubtree path => .ok (zapSubtree K s path).2
  | .markCacheSlotEmpty slot => clearSlot s (some slot)
  | .build oldInotifyFd => reinitialize K s oldInotifyFd
  | .event ev nextEv firstTry => (·.1) <$> processNextInotifyEvent K s ev nextEv firstTry
  | .command input arg₀ => executeCommand K s input arg₀
  | .kernel k => .ok { s with kernel := k }

def calls (K : Kernel κ) : Machine (State κ) (Call κ) where
  next s a := (execCall K s a).toOption

/-- How `processNextInotifyEvent` gets to its branches. -/
theorem processNextInotifyEvent_cases (s : State κ) (ev : Event) (nextEv : Option Event)
    (firstTry : Bool) :
    processNextInotifyEvent K s ev nextEv firstTry = rebuild K s ∨
    processNextInotifyEvent K s ev nextEv firstTry = .error .abort ∨
    ∃ evCacheSlot, processNextInotifyEvent K s ev nextEv firstTry =
      processEvent K s evCacheSlot ev nextEv firstTry ∧
      ((∃ j, evCacheSlot = some j ∧ s.cache.findWatch ev.wd = some j) ∨
        evCacheSlot = none ∧ (ev.wd = -1 ∨ ev.has IN_IGNORED = true)) := by
  rw [processNextInotifyEvent]
  split
  · rw [findWatchChecked]
    cases hslot : s.cache.findWatch ev.wd with
    | none =>
      cases s.abortOnCacheProblem with
      | true => exact .inr (.inl rfl)
      | false => exact .inl rfl
    | some slot => exact .inr (.inr ⟨some slot, rfl, .inl ⟨slot, rfl, rfl⟩⟩)
  · next h =>
    refine .inr (.inr ⟨none, rfl, .inr ⟨rfl, ?_⟩⟩)
    rw [not_and_or, not_not, Bool.not_eq_false] at h
    exact h

theorem processNextInotifyEvent_spec (s : State κ) (ev : Event) (nextEv : Option Event)
    (firstTry : Bool) : Post (fun _ => True) (EventDone K s ev nextEv firstTry)
      (processNextInotifyEvent K s ev nextEv firstTry) := by
  obtain h | h | ⟨slot, h, -⟩ := processNextInotifyEvent_cases (K := K) s ev nextEv firstTry
  · rw [h]
    exact (rebuild_spec (K := K) (s := s)).mono (fun _ _ => trivial) fun _ h =>
      ⟨.head .free h.1, fun _ => h.2.1, h.2.2.1 ▸ .rebuilt h.2.2.2⟩
  · rw [h]
    trivial
  · rw [h]
    exact processEvent_spec.mono (fun _ _ => trivial) fun _ h => h

theorem executeCommand_steps (s : State κ) (input arg₀ : CString) :
    Post (fun _ => True) (fun t => Steps s.cache t.cache) (executeCommand K s input arg₀) := by
  rw [executeCommand]
  refine Post.ite (fun _ => trivial) fun _ => ?_
  dsimp only
  split
  · exact .refl
  · refine (watchSubtree_spec _).mono (fun _ _ => trivial) fun t ht => ?_
    exact (zapSubtree_spec _).1.trans ht.steps
  · exact Post.bind (Q := fun _ => True) (checkCacheConsistency_spec.mono (fun _ _ => trivial)
      fun _ h => h) fun _ _ => .refl
  · exact Post.bind (Q := fun _ => True) (checkCacheConsistency_spec.mono (fun _ _ => trivial)
      fun _ h => h) fun _ _ => .refl
  · trivial
  · exact .refl
  · exact (zapSubtree_spec _).1
  · exact (reinitialize_spec (-1)).mono (fun _ _ => trivial) fun _ ht => .head .free ht.1
  · exact .refl

theorem execCall_steps (s : State κ) (a : Call κ) :
    Post (fun _ => True) (fun t => Steps s.cache t.cache) (execCall K s a) := by
  cases a with
  | traverseTree p d =>
    exact (traverseTree_spec p d).mono (fun _ _ => trivial) fun _ h => h.steps
  | findEmptyCacheSlot => exact .single .grow
  | rewriteCachedPaths => exact .single .rewrite
  | zapSubtree path => exact (zapSubtree_spec path).1
  | markCacheSlotEmpty slot =>
    exact (clearSlot_spec (some slot)).mono (fun _ _ => trivial) fun _ h => h.steps
  | build fd =>
    exact (reinitialize_spec fd).mono (fun _ _ => trivial) fun _ h => .head .free h.1
  | event ev nextEv firstTry =>
    exact Post.map ((processNextInotifyEvent_spec s ev nextEv firstTry).mono
      (fun _ h => h) fun _ h => h.steps)
  | command input arg₀ => exact executeCommand_steps s input arg₀
  | kernel k => exact .refl

theorem wf_of_reachable {s₀ s : State κ} (h0 : s₀.cache = .freeCache)
    (h : (calls K).Reachable s₀ s) : s.cache.WF := by
  refine h.invariant (P := fun s => s.cache.WF) ?_ fun s a t hs _ hn => ?_
  · rw [h0]
    exact Cache.wf_freeCache
  · exact ((execCall_steps s a).of_toOption hn).wf hs

/-- An event that uses `evCacheSlot` does so with a slot of the cache that holds its descriptor. -/
def UsesOwnSlot (K : Kernel κ) (s : State κ) (ev : Event) (nextEv : Option Event)
    (firstTry : Bool) : Prop :=
  processNextInotifyEvent K s ev nextEv firstTry ≠ .error .fault ∧
  (processNextInotifyEvent K s ev nextEv firstTry = rebuild K s ∨
    processNextInotifyEvent K s ev nextEv firstTry = .error .abort ∨
    ∃ evCacheSlot, processNextInotifyEvent K s ev nextEv firstTry =
      processEvent K s evCacheSlot ev nextEv firstTry ∧
      (ev.has slotBits = true → ∃ j w, evCacheSlot = some j ∧ j < s.cache.cacheSize ∧
        s.cache.wlCache[j]? = some w ∧ w.wd = ev.wd))

/-- An event without a slot has none of the bits of the branches that use it. -/
theorem Event.Delivered.not_slotBits {ev : Event} (h : ev.Delivered)
    (hnone : ev.wd = -1 ∨ ev.has IN_IGNORED = true) : ev.has slotBits = false := by
  cases h with
  | overflow _ hmask => simp [Event.has, hmask, slotBits, IN_Q_OVERFLOW, IN_CREATE, IN_MOVED_TO,
      IN_DELETE_SELF, IN_MOVED_FROM, IN_UNMOUNT, IN_MOVE_SELF]
  | watch hwd _ hign =>
    have hmask := hign (hnone.resolve_left (by omega))
    have hbits : ev.mask &&& ~~~IN_ISDIR &&& slotBits = 0 := by
      rw [hmask]
      decide
    rw [BitVec.and_assoc, show ~~~IN_ISDIR &&& slotBits = slotBits by decide] at hbits
    simp [Event.has, hbits]

theorem usesOwnSlot_of_wf {s : State κ} (hwf : s.cache.WF) {ev : Event} (hev : ev.Delivered)
    (nextEv : Option Event) (firstTry : Bool) : UsesOwnSlot K s ev nextEv firstTry := by
  have hcases := processNextInotifyEvent_cases (K := K) s ev nextEv firstTry
  rw [UsesOwnSlot]
  generalize processNextInotifyEvent K s ev nextEv firstTry = r at hcases
  obtain rfl | rfl | ⟨slot, rfl, ⟨j, rfl, hj⟩ | ⟨rfl, hnone⟩⟩ := hcases
  · exact ⟨fun h => rebuild_spec.of_error h rfl, .inl rfl⟩
  · exact ⟨nofun, .inr (.inl rfl)⟩
  · obtain ⟨w, hw, hwd⟩ := hwf.findWatch_some hj
    have hlt := (List.getElem?_eq_some_iff.mp hw).1
    refine ⟨fun h => ?_, .inr (.inr ⟨_, rfl, fun _ =>
      ⟨j, w, rfl, hwf.cacheSize_eq ▸ hlt, hw, hwd⟩⟩)⟩
    exact (processEvent_spec.of_error h hwf rfl).2 ⟨j, rfl, hlt⟩
  · have hbits := hev.not_slotBits hnone
    refine ⟨fun h => ?_, .inr (.inr ⟨_, rfl, fun h => absurd h (by simp [hbits])⟩)⟩
    have := (processEvent_spec.of_error h hwf rfl).1
    simp [hbits] at this

/-- In every state reached from the empty cache the cache is well formed, and every event that the
kernel can deliver uses `evCacheSlot` only as the slot of its own descriptor. -/
theorem cache_sound (K : Kernel κ) {s₀ s : State κ} (h0 : s₀.cache = .freeCache)
    (h : (calls K).Reachable s₀ s) :
    s.cache.cacheSize = s.cache.wlCache.length ∧ 200 ∣ s.cache.cacheSize ∧
    (∀ w ∈ s.cache.wlCache, w.wd = -1 ↔ w.path = []) ∧
    (∀ (i j : Nat) (v w : Watch), s.cache.wlCache[i]? = some v → s.cache.wlCache[j]? = some w →
      v.wd ≠ -1 → v.wd = w.wd → i = j) ∧
    ∀ (ev : Event) (nextEv : Option Event) (firstTry : Bool), ev.Delivered →
      UsesOwnSlot K s ev nextEv firstTry := by
  have hwf := wf_of_reachable h0 h
  refine ⟨hwf.cacheSize_eq, hwf.dvd, hwf.unused_iff, fun i j v w hi hj hv => ?_,
    fun ev nextEv firstTry hev => usesOwnSlot_of_wf hwf hev nextEv firstTry⟩
  refine hwf.wd_inj hi hj ?_
  have := (hwf.unused_or_pos v (List.mem_of_getElem? hi)).resolve_left hv
  omega

/-- A kernel with one directory, whose watch is 1; the state says whether the directory exists. -/
def oneDir : Kernel Bool where
  inotifyInit k := some (3, k)
  close k _ := k
  addWatch k _ _ _ := (if k then .ok 1 else .error .enoent, k)
  rmWatch k _ _ := if k then some k else none
  nftw k path := if k then [(path, true)] else []
  lstat k _ := if k then some true else none
  one_le_addWatch := by
    intro k fd path flags wd k' h
    cases k with
    | true => cases h; exact Int.le_refl 1
    | false => cases h

/-- The program before the initial build of the cache, with one root. -/
def oneRoot : State Bool where
  cache := .freeCache
  rootDirPaths := [some ['r']]
  ignoreRootDirs := 0
  inotifyFd := -1
  abortOnCacheProblem := false
  checkCache := false
  kernel := true
  halfZapped := false

/-- The root is found in slot 0 when it is deleted. -/
theorem cache_sound_oneRoot : ∃ s, (calls oneDir).Reachable oneRoot s ∧
    s.cache.wlCache[0]? = some ⟨1, ['r']⟩ ∧
    UsesOwnSlot oneDir s ⟨1, IN_DELETE_SELF, 0, 0, []⟩ none true := by
  obtain ⟨s, hs, hslot⟩ := (Machine.Reachable.self (calls oneDir) oneRoot).exists_of_run
    (P := fun s => s.cache.wlCache[0]? = some ⟨1, ['r']⟩) [.build (-1)] ⟨_, rfl, rfl⟩
  exact ⟨s, hs, hslot, (cache_sound oneDir rfl hs).2.2.2.2 _ none true
    (.watch (by decide) (by decide) (by decide))⟩

end Tlpi.InotifyDtree
