import Tlpi.Lib.Post
import Tlpi.Inotify.DtreeCache

/-!
# What the functions of `inotify_dtree.c` do

One lemma per function: how the cache changes, and whether a failed zap is left behind. An error is
an access outside the cache only for an event that uses `evCacheSlot` when this is not a slot.
-/

namespace Tlpi.InotifyDtree

open Cache (Steps)

variable {κ : Type} {K : Kernel κ} {s : State κ}

/-- The cache changes by steps and no zap fails. -/
structure Evolves (s t : State κ) : Prop where
  steps : Steps s.cache t.cache
  halfZapped : t.halfZapped = s.halfZapped

theorem Evolves.refl (s : State κ) : Evolves s s := ⟨.refl, rfl⟩

theorem Evolves.trans {s t u : State κ} (h : Evolves s t) (h' : Evolves t u) : Evolves s u :=
  ⟨h.steps.trans h'.steps, h'.halfZapped.trans h.halfZapped⟩

theorem inotifyAddWatch_ok {k k' : κ} {fd wd : Int} {path : CString} {flags : BitVec 32}
    (h : K.inotifyAddWatch k fd path flags = (.ok wd, k')) :
    1 ≤ wd ∧ path ≠ [] ∧ path.length < PATH_MAX := by
  rw [Kernel.inotifyAddWatch] at h
  split at h
  · cases h
  · split at h
    · cases h
    · exact ⟨K.one_le_addWatch h, ‹_›, Nat.lt_of_not_le ‹_›⟩

theorem traverseTree_spec (pathname : CString) (isDir : Bool) :
    Post (· ≠ .fault) (Evolves s) (traverseTree K s pathname isDir) := by
  rw [traverseTree]
  refine Post.ite (fun _ => Evolves.refl s) fun _ => ?_
  split
  · exact Post.ite (fun _ => Post.ok_iff.mpr ⟨.refl, rfl⟩) fun _ => by simp
  · next hadd =>
    refine Post.ite (fun _ => Post.ok_iff.mpr ⟨.refl, rfl⟩) fun hnew =>
      Post.ok_iff.mpr ⟨.single ?_, rfl⟩
    obtain ⟨hwd, hne, hlen⟩ := inotifyAddWatch_ok hadd
    exact .add hwd hne hlen (by simpa using hnew)

theorem watchSubtree_spec (path : CString) :
    Post (· ≠ .fault) (Evolves s) (watchSubtree K s path) := by
  refine Post.foldlM (P := Evolves s) (.refl s) fun t p ht _ => ?_
  exact (traverseTree_spec p.1 p.2).mono (fun _ h => h) fun _ h => ht.trans h

theorem reinitialize_spec (oldInotifyFd : Int) :
    Post (· ≠ .fault) (fun t => Steps .freeCache t.cache ∧ t.halfZapped = false) <|
      reinitialize K s oldInotifyFd := by
  unfold reinitialize
  generalize (if 0 ≤ oldInotifyFd then _ else _) = k
  dsimp only
  split
  · simp
  · refine Post.foldlM (P := fun t : State κ => Steps .freeCache t.cache ∧ t.halfZapped = false) ?_ ?_
    · exact ⟨.refl, rfl⟩
    · intro t p ht _
      exact (watchSubtree_spec p).mono (fun _ h => h) fun u hu =>
        ⟨ht.1.trans hu.steps, hu.halfZapped.trans ht.2⟩

theorem zapSlots_spec (pn : CString) : ∀ (js : List Nat) (cnt : Int) (s : State κ), 0 ≤ cnt →
    Steps s.cache (zapSlots K pn js cnt s).2.cache ∧
      (zapSlots K pn js cnt s).2.halfZapped =
        (s.halfZapped || decide ((zapSlots K pn js cnt s).1 = -1))
  | [], cnt, s, hcnt => by
    have : cnt ≠ -1 := by omega
    exact ⟨.refl, by simp [zapSlots, this]⟩
  | j :: js, cnt, s, hcnt => by
    rw [zapSlots]
    split
    · exact zapSlots_spec pn js cnt s hcnt
    · split
      · split
        · exact ⟨.refl, by simp⟩
        · next hj _ _ k _ =>
          obtain ⟨hs, hz⟩ := zapSlots_spec pn js (cnt + 1) { s with
            kernel := k
            cache := s.cache.markCacheSlotEmpty j } (by omega)
          refine ⟨.head (.clear ?_) hs, hz⟩
          exact (List.getElem?_eq_some_iff.mp hj).1
      · exact zapSlots_spec pn js cnt s hcnt

theorem zapSubtree_spec (path : CString) :
    Steps s.cache (zapSubtree K s path).2.cache ∧
      (zapSubtree K s path).2.halfZapped =
        (s.halfZapped || decide ((zapSubtree K s path).1 = -1)) :=
  zapSlots_spec path _ 0 s (Int.le_refl 0)

theorem zapRootDirPath_spec (path : CString) :
    Post (· ≠ .fault) (fun t => t.cache = s.cache ∧ t.halfZapped = s.halfZapped)
      (zapRootDirPath s path) := by
  rw [zapRootDirPath]
  split
  · simp
  · split <;> simp

theorem checkCacheConsistency_spec :
    Post (· ≠ .fault) (fun _ => True) (checkCacheConsistency K s) := by
  rw [checkCacheConsistency]
  split <;> simp

theorem findWatchChecked_spec (wd : Int) :
    Post (· ≠ .fault) (fun slot => s.cache.findWatch wd = slot) (findWatchChecked s wd) := by
  rw [findWatchChecked]
  split
  · simpa
  · split <;> simp_all

theorem finishEvent_spec (evLen : Nat) :
    Post (· ≠ .fault) (fun r => r = (s, (evLen : Int))) (finishEvent K s evLen) := by
  rw [finishEvent]
  split
  · exact (checkCacheConsistency_spec (K := K) (s := s)).bind fun _ _ => Post.pure_iff.mpr rfl
  · exact Post.pure_iff.mpr rfl

theorem rebuild_spec :
    Post (· ≠ .fault)
      (fun r => Steps .freeCache r.1.cache ∧ r.1.halfZapped = false ∧
        r.2 = (INOTIFY_READ_BUF_LEN : Int) ∧ reinitialize K s s.inotifyFd = .ok r.1)
      (rebuild K s) :=
  (reinitialize_spec s.inotifyFd).withEq.bind fun _ ht =>
    Post.pure_iff.mpr ⟨ht.1.1, ht.1.2, rfl, ht.2⟩

/-! ### Events -/

/-- `evCacheSlot` is set to a slot of the cache. -/
def SlotInRange (s : State κ) (evCacheSlot : Option Nat) : Prop :=
  ∃ j, evCacheSlot = some j ∧ j < s.cache.wlCache.length

theorem slotPath_spec (evCacheSlot : Option Nat) :
    Post (fun _ => ¬SlotInRange s evCacheSlot) (fun _ => True) (slotPath s evCacheSlot) := by
  unfold slotPath
  split
  · simp [SlotInRange]
  · split
    · next hj => simpa [SlotInRange] using hj
    · simp

theorem clearSlot_spec (evCacheSlot : Option Nat) :
    Post (fun _ => ¬SlotInRange s evCacheSlot) (Evolves s) (clearSlot s evCacheSlot) := by
  unfold clearSlot
  split
  · simp [SlotInRange]
  · split
    · next h => exact Post.ok_iff.mpr ⟨.single (.clear h), rfl⟩
    · next h => simpa [SlotInRange] using h

/-- The bits of the events whose branches use `evCacheSlot`. -/
def slotBits : BitVec 32 :=
  IN_CREATE ||| IN_MOVED_TO ||| IN_DELETE_SELF ||| IN_MOVED_FROM ||| IN_UNMOUNT ||| IN_MOVE_SELF

theorem Event.has_mono {ev : Event} {a b : BitVec 32} (hab : b &&& a = a) (h : ev.has a = true) :
    ev.has b = true := by
  simp only [Event.has, bne_iff_ne, ne_eq] at h ⊢
  intro hb
  apply h
  rw [← hab, ← BitVec.and_assoc, hb]
  exact BitVec.zero_and

theorem Event.has_of_movedFromDir {ev : Event} (h : ev.movedFromDir = true) :
    ev.has IN_MOVED_FROM = true := by
  simp only [Event.movedFromDir, beq_iff_eq, Event.has, bne_iff_ne, ne_eq] at h ⊢
  intro h0
  have : ev.mask &&& (IN_MOVED_FROM ||| IN_ISDIR) &&& IN_MOVED_FROM = IN_MOVED_FROM := by
    rw [h]; decide
  rw [BitVec.and_assoc, show (IN_MOVED_FROM ||| IN_ISDIR) &&& IN_MOVED_FROM = IN_MOVED_FROM
    by decide, h0] at this
  exact absurd this (by decide)

/-- The errors of an event: an access outside the cache only if the event uses `evCacheSlot` and
this is not a slot. -/
def EventError (s : State κ) (evCacheSlot : Option Nat) (ev : Event) (e : Stop) : Prop :=
  s.cache.WF → e = .fault → ev.has slotBits = true ∧ ¬SlotInRange s evCacheSlot

/-- The number of bytes consumed: one event, a pair, the whole buffer if the cache was rebuilt, or
nothing yet if the event may be the first of a pair. -/
inductive EventResult (K : Kernel κ) (ev : Event) (nextEv : Option Event) (firstTry : Bool)
    (t : State κ) : Int → Prop
  | single : EventResult K ev nextEv firstTry t ev.size
  | pair {n} : nextEv = some n → EventResult K ev nextEv firstTry t (ev.size + n.size : Nat)
  | rebuilt {u fd} : reinitialize K u fd = .ok t →
    EventResult K ev nextEv firstTry t INOTIFY_READ_BUF_LEN
  | retry : ev.movedFromDir = true → nextEv = none → firstTry = true →
    EventResult K ev nextEv firstTry t (-1)

/-- What an event does: it changes the cache by steps and leaves no failed zap behind. -/
structure EventDone (K : Kernel κ) (s : State κ) (ev : Event) (nextEv : Option Event)
    (firstTry : Bool) (r : State κ × Int) : Prop where
  steps : Steps s.cache r.1.cache
  halfZapped : s.halfZapped = false → r.1.halfZapped = false
  result : EventResult K ev nextEv firstTry r.1 r.2

section Event

variable {evCacheSlot : Option Nat} {ev : Event} {nextEv : Option Event} {firstTry : Bool}

theorem noFault {α : Type} {Q : α → Prop} {x : Except Stop α}
    (h : Post (· ≠ .fault) Q x) : Post (EventError s evCacheSlot ev) Q x :=
  h.mono (fun _ he _ hf => absurd hf he) fun _ h => h

theorem slotFault {α : Type} {Q : α → Prop} {x : Except Stop α}
    (hev : ev.has slotBits = true)
    (h : Post (fun _ => ¬SlotInRange s evCacheSlot) Q x) : Post (EventError s evCacheSlot ev) Q x :=
  h.mono (fun _ he _ _ => ⟨hev, he⟩) fun _ h => h

theorem finishEvent_done {t : State κ} (ht : Evolves s t) {evLen : Nat}
    (hlen : EventResult K ev nextEv firstTry t evLen) :
    Post (EventError s evCacheSlot ev) (EventDone K s ev nextEv firstTry)
      (finishEvent K t evLen) :=
  (noFault (finishEvent_spec (K := K) (s := t) evLen)).mono (fun _ h => h) fun r hr => by
    subst hr
    exact ⟨ht.steps, ht.halfZapped.trans, hlen⟩

theorem rebuild_done {t : State κ} :
    Post (EventError s evCacheSlot ev) (EventDone K s ev nextEv firstTry) (rebuild K t) :=
  (noFault (rebuild_spec (K := K) (s := t))).mono (fun _ h => h) fun _ hr =>
    ⟨.head .free hr.1, fun _ => hr.2.1, hr.2.2.1 ▸ .rebuilt hr.2.2.2⟩

/-- Both callers of `zapSubtree` rebuild the cache when it fails. -/
theorem zap_done {t : State κ} (ht : Evolves s t) (path : CString) :
    Post (EventError s evCacheSlot ev) (EventDone K s ev nextEv firstTry)
      (if (zapSubtree K t path).1 = -1 then rebuild K (zapSubtree K t path).2
        else finishEvent K (zapSubtree K t path).2 ev.size) := by
  obtain ⟨hs, hz⟩ := zapSubtree_spec (K := K) (s := t) path
  refine Post.ite (fun _ => rebuild_done) fun hcnt => ?_
  refine finishEvent_done (ht.trans ⟨hs, ?_⟩) .single
  rw [hz, decide_eq_false hcnt, Bool.or_false]

theorem processMovedFrom_spec (hmoved : ev.movedFromDir = true) :
    Post (EventError s evCacheSlot ev) (EventDone K s ev nextEv firstTry)
      (processMovedFrom K s evCacheSlot ev nextEv firstTry) := by
  have hev : ev.has slotBits = true := ev.has_mono (by decide) (ev.has_of_movedFromDir hmoved)
  rw [processMovedFrom]
  split
  · next n hn =>
    refine (noFault (findWatchChecked_spec n.wd)).bind fun slot hslot => ?_
    cases slot with
    | none => exact rebuild_done
    | some slot =>
      refine (slotFault hev (slotPath_spec evCacheSlot)).bind fun _ _ => ?_
      refine Post.bind (Q := fun _ => True) ?_ fun newPathPrefix _ => ?_
      · refine (slotPath_spec (some slot)).mono (fun _ he hwf _ => absurd ?_ he) fun _ h => h
        obtain ⟨w, hw, -⟩ := hwf.findWatch_some hslot
        exact ⟨slot, rfl, (List.getElem?_eq_some_iff.mp hw).1⟩
      · refine finishEvent_done ?_ (.pair (Option.filter_eq_some_iff.mp hn).1)
        exact ⟨.single .rewrite, rfl⟩
  · refine Post.ite (fun _ => ?_) fun hc => Post.ok_iff.mpr ⟨.refl, fun h => h, ?_⟩
    · exact (slotFault hev (slotPath_spec evCacheSlot)).bind fun _ _ => zap_done (.refl s) _
    · rw [Bool.or_eq_true, not_or, Option.not_isSome_iff_eq_none, Bool.not_eq_true',
        Bool.not_eq_false] at hc
      exact .retry hmoved hc.1 hc.2

theorem processEvent_spec :
    Post (EventError s evCacheSlot ev) (EventDone K s ev nextEv firstTry)
      (processEvent K s evCacheSlot ev nextEv firstTry) := by
  rw [processEvent]
  refine Post.ite (fun hc => ?_) fun _ => Post.ite (fun hc => ?_) fun _ =>
    Post.ite processMovedFrom_spec fun _ => Post.ite (fun _ => ?_) fun _ =>
    Post.ite (fun hc => ?_) fun _ => Post.ite (fun hc => ?_) fun _ =>
    finishEvent_done (.refl s) .single
  · rw [Bool.and_eq_true] at hc
    have hev : ev.has slotBits = true := ev.has_mono (by decide) hc.2
    refine (slotFault hev (slotPath_spec evCacheSlot)).bind fun path _ => ?_
    refine Post.bind (Q := Evolves s) ?_ fun t ht => finishEvent_done ht .single
    exact Post.ite (fun _ => Post.ok_iff.mpr (.refl s)) fun _ => noFault (watchSubtree_spec _)
  · have hev : ev.has slotBits = true := ev.has_mono (by decide) hc
    refine (slotFault hev (slotPath_spec evCacheSlot)).bind fun path _ => ?_
    refine Post.bind (Q := fun t : State κ => t.cache = s.cache ∧ t.halfZapped = s.halfZapped) ?_
      fun t ht => ?_
    · exact Post.ite (fun _ => noFault (zapRootDirPath_spec _)) fun _ =>
        Post.ok_iff.mpr ⟨rfl, rfl⟩
    refine Post.bind (Q := Evolves s) ?_ fun u hu => finishEvent_done hu .single
    refine (clearSlot_spec evCacheSlot).mono (fun e he _ _ => ⟨hev, ?_⟩) fun u hu =>
      ⟨ht.1 ▸ hu.steps, hu.halfZapped.trans ht.2⟩
    rw [SlotInRange] at he ⊢
    rwa [ht.1] at he
  · exact Post.bind (noFault ((reinitialize_spec s.inotifyFd).withEq)) fun t ht =>
      (noFault (finishEvent_spec (K := K) (s := t) _)).mono (fun _ h => h) fun r hr => by
        subst hr
        exact ⟨.head .free ht.1.1, fun _ => ht.1.2, .rebuilt ht.2⟩
  · have hev : ev.has slotBits = true := ev.has_mono (by decide) hc
    exact (slotFault hev (clearSlot_spec evCacheSlot)).bind fun t ht => finishEvent_done ht .single
  · have hev : ev.has slotBits = true := ev.has_mono (by decide) hc
    refine (slotFault hev (slotPath_spec evCacheSlot)).bind fun path _ => ?_
    refine Post.ite (fun _ => ?_) fun _ => finishEvent_done (.refl s) .single
    exact (noFault (zapRootDirPath_spec path)).bind fun t ht => zap_done ⟨ht.1 ▸ .refl, ht.2⟩ path

end Event

end Tlpi.InotifyDtree
