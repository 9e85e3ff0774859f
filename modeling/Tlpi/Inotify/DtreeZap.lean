import Tlpi.Inotify.DtreeInvariant

/-!
# Failed zaps

`zapSubtree` stops in the middle of the cache when `inotify_rm_watch` fails, and expects its caller
to rebuild the cache. The machine is the main loop of the program: events and interactive commands
in any order. Both callers of `zapSubtree` in `processNextInotifyEvent` rebuild the cache, the two
in `executeCommand` do not look at the result.
-/

namespace Tlpi.InotifyDtree

open Cache (Steps)

variable {κ : Type} {K : Kernel κ}

/-- A round of the main loop, or a change in the kernel. -/
inductive MainStep (κ : Type)
  | event (ev : Event) (nextEv : Option Event) (firstTry : Bool)
  | command (input arg₀ : CString)
  | kernel (k : κ)

def execMain (K : Kernel κ) (s : State κ) : MainStep κ → Except Stop (State κ)
  | .event ev nextEv firstTry => (·.1) <$> processNextInotifyEvent K s ev nextEv firstTry
  | .command input arg₀ => executeCommand K s input arg₀
  | .kernel k => .ok { s with kernel := k }

def mainLoop (K : Kernel κ) : Machine (State κ) (MainStep κ) where
  next s a := (execMain K s a).toOption

/-- The kernel removes the watches `wds` one after the other. -/
def Kernel.removesAll (K : Kernel κ) (fd : Int) : κ → List Int → Bool
  | _, [] => true
  | k, wd :: wds =>
    match K.rmWatch k fd wd with
    | none => false
    | some k => K.removesAll fd k wds

/-- The watch descriptors of the entries under `path`. -/
def wdsUnder (path : CString) (ws : List Watch) : List Int :=
  (ws.filter fun w => decide (0 ≤ w.wd ∧ isUnder path w.path = true)).map (·.wd)

/-- The loop fails exactly if the kernel does not remove the watches of the entries it has left. -/
theorem zapSlots_fst (pn : CString) : ∀ (n j : Nat) (cnt : Int) (s : State κ), 0 ≤ cnt →
    s.cache.wlCache.length = j + n →
    ((zapSlots K pn (List.range' j n) cnt s).1 ≠ -1 ↔
      K.removesAll s.inotifyFd s.kernel (wdsUnder pn (s.cache.wlCache.drop j)) = true)
  | 0, j, cnt, s, hcnt, hlen => by
    rw [List.drop_eq_nil_of_le (by omega)]
    simp only [List.range'_zero, zapSlots, wdsUnder, List.filter_nil, List.map_nil,
      Kernel.removesAll, iff_true]
    omega
  | n + 1, j, cnt, s, hcnt, hlen => by
    have hj : j < s.cache.wlCache.length := by omega
    rw [List.range'_succ, zapSlots, List.drop_eq_getElem_cons hj, List.getElem?_eq_getElem hj]
    generalize hw : s.cache.wlCache[j] = w
    dsimp only
    by_cases hmatch : 0 ≤ w.wd ∧ isUnder pn w.path = true
    · rw [if_pos hmatch]
      simp only [wdsUnder, List.filter_cons, decide_eq_true hmatch, if_true, List.map_cons,
        Kernel.removesAll]
      cases hrm : K.rmWatch s.kernel s.inotifyFd w.wd with
      | none => simp
      | some k =>
        have ih := zapSlots_fst pn n (j + 1) (cnt + 1) { s with
          kernel := k
          cache := s.cache.markCacheSlotEmpty j } (by omega)
          (by simp only [Cache.markCacheSlotEmpty, List.length_set]; omega)
        simpa only [Cache.markCacheSlotEmpty, wdsUnder, List.drop_set_of_lt (Nat.lt_succ_self j)]
          using ih
    · rw [if_neg hmatch]
      simp only [wdsUnder, List.filter_cons, decide_eq_false hmatch, Bool.false_eq_true, if_false]
      exact zapSlots_fst pn n (j + 1) cnt s hcnt (by omega)

theorem zapSubtree_fst {s : State κ} (hwf : s.cache.WF) (path : CString) :
    (zapSubtree K s path).1 ≠ -1 ↔
      K.removesAll s.inotifyFd s.kernel (wdsUnder path s.cache.wlCache) = true := by
  rw [zapSubtree, List.range_eq_range']
  exact zapSlots_fst path s.cache.cacheSize 0 0 s (Int.le_refl 0) (by simp [hwf.cacheSize_eq])

/-- The subtree that a command zaps. -/
def zappedBy (input arg₀ : CString) : Option CString :=
  let line := input.dropLast
  if line.head? = some 'a' ∨ line.head? = some 'z' then some (scanArg line arg₀) else none

/-- The kernel removes the watches of the subtree that the step zaps, if it is a command. -/
def RemovesZapped (K : Kernel κ) (s : State κ) : MainStep κ → Prop
  | .command input arg₀ => ∀ path, zappedBy input arg₀ = some path →
    K.removesAll s.inotifyFd s.kernel (wdsUnder path s.cache.wlCache) = true
  | _ => True

theorem zapSubtree_halfZapped {s : State κ} (hwf : s.cache.WF) (hs : s.halfZapped = false)
    (path : CString) : (zapSubtree K s path).2.halfZapped = false ↔
      K.removesAll s.inotifyFd s.kernel (wdsUnder path s.cache.wlCache) = true := by
  rw [(zapSubtree_spec path).2, hs, Bool.false_or, decide_eq_false_iff_not, ← zapSubtree_fst hwf]

theorem removesZapped_zap {s : State κ} {input arg₀ : CString}
    (h : input.dropLast.head? = some 'a' ∨ input.dropLast.head? = some 'z') :
    RemovesZapped K s (.command input arg₀) ↔
      K.removesAll s.inotifyFd s.kernel
        (wdsUnder (scanArg input.dropLast arg₀) s.cache.wlCache) = true := by
  simp [RemovesZapped, zappedBy, h]

theorem removesZapped_other {s : State κ} {input arg₀ : CString}
    (ha : input.dropLast.head? ≠ some 'a') (hz : input.dropLast.head? ≠ some 'z') :
    RemovesZapped K s (.command input arg₀) := by
  simp [RemovesZapped, zappedBy, ha, hz]

theorem executeCommand_halfZapped {s : State κ} (hwf : s.cache.WF) (hs : s.halfZapped = false)
    (input arg₀ : CString) :
    Post (fun _ => True)
      (fun t => t.halfZapped = false ↔ RemovesZapped K s (.command input arg₀))
      (executeCommand K s input arg₀) := by
  have hcheck : Post (fun _ => True) (fun _ => True) (checkCacheConsistency K s) :=
    checkCacheConsistency_spec.mono (fun _ _ => trivial) fun _ h => h
  rw [executeCommand]
  refine Post.ite (fun _ => trivial) fun _ => ?_
  dsimp only
  split
  · next h => exact iff_of_true hs (removesZapped_other (by simp [h]) (by simp [h]))
  · next h =>
    refine (watchSubtree_spec _).mono (fun _ _ => trivial) fun t ht => ?_
    rw [removesZapped_zap (.inl h), ht.halfZapped, zapSubtree_halfZapped hwf hs]
  · next h =>
    exact hcheck.bind fun _ _ => iff_of_true hs (removesZapped_other (by simp [h]) (by simp [h]))
  · next h =>
    exact hcheck.bind fun _ _ => iff_of_true hs (removesZapped_other (by simp [h]) (by simp [h]))
  · trivial
  · next h => exact iff_of_true hs (removesZapped_other (by simp [h]) (by simp [h]))
  · next h => exact (zapSubtree_halfZapped hwf hs _).trans (removesZapped_zap (.inr h)).symm
  · next h =>
    refine (reinitialize_spec (-1)).mono (fun _ _ => trivial) fun t ht => ?_
    exact iff_of_true ht.2 (removesZapped_other (by simp [h]) (by simp [h]))
  · next ha _ _ _ _ hz _ h =>
    refine iff_of_true hs (removesZapped_other ?_ ?_)
    · exact fun h' => ha (Option.some.inj (h.symm.trans h'))
    · exact fun h' => hz (Option.some.inj (h.symm.trans h'))

theorem execMain_halfZapped {s : State κ} (hwf : s.cache.WF) (hs : s.halfZapped = false)
    (a : MainStep κ) :
    Post (fun _ => True) (fun t => t.halfZapped = false ↔ RemovesZapped K s a)
      (execMain K s a) := by
  cases a with
  | event ev nextEv firstTry =>
    exact Post.map ((processNextInotifyEvent_spec s ev nextEv firstTry).mono (fun _ h => h)
      fun _ h => iff_of_true (h.halfZapped hs) trivial)
  | command input arg₀ => exact executeCommand_halfZapped hwf hs input arg₀
  | kernel k => exact iff_of_true hs trivial

theorem execMain_steps (s : State κ) (a : MainStep κ) :
    Post (fun _ => True) (fun t => Steps s.cache t.cache) (execMain K s a) := by
  cases a with
  | event ev nextEv firstTry => exact execCall_steps s (.event ev nextEv firstTry)
  | command input arg₀ => exact execCall_steps s (.command input arg₀)
  | kernel k => exact execCall_steps (K := K) s (.kernel k)

/-! ### Events that zap a subtree -/

/-- The state in which the branch for an event calls `zapSubtree`, and the subtree, if it does. -/
def zapOf (s : State κ) (evCacheSlot : Option Nat) (ev : Event) (nextEv : Option Event)
    (firstTry : Bool) : Option (State κ × CString) :=
  (slotPath s evCacheSlot).toOption.bind fun path =>
    if ev.has IN_ISDIR && ev.has (IN_CREATE ||| IN_MOVED_TO) then none
    else if ev.has IN_DELETE_SELF then none
    else if ev.movedFromDir then
      match nextEv.filter fun nextEv => nextEv.has IN_MOVED_TO && nextEv.cookie == ev.cookie with
      | some _ => none
      | none =>
        if nextEv.isSome || !firstTry then
          some (s, snprintf (PATH_MAX + NAME_MAX) (path ++ '/' :: ev.name))
        else none
    else if ev.has IN_Q_OVERFLOW then none
    else if ev.has IN_UNMOUNT then none
    else if ev.has IN_MOVE_SELF ∧ isRootDirPath s path then
      (zapRootDirPath s path).toOption.map (·, path)
    else none

/-- The subtree that an event zaps. -/
def zappedByEvent (s : State κ) (ev : Event) (nextEv : Option Event) (firstTry : Bool) :
    Option (State κ × CString) :=
  if ev.wd ≠ -1 ∧ ev.has IN_IGNORED = false then
    match findWatchChecked s ev.wd with
    | .ok (some evCacheSlot) => zapOf s (some evCacheSlot) ev nextEv firstTry
    | _ => none
  else zapOf s none ev nextEv firstTry

section
variable {s t : State κ} {evCacheSlot : Option Nat} {ev : Event} {nextEv : Option Event}
  {firstTry : Bool} {path : CString}

theorem processEvent_zap (h : zapOf s evCacheSlot ev nextEv firstTry = some (t, path)) :
    processEvent K s evCacheSlot ev nextEv firstTry =
      if (zapSubtree K t path).1 = -1 then rebuild K (zapSubtree K t path).2
      else finishEvent K (zapSubtree K t path).2 ev.size := by
  rw [zapOf] at h
  cases hslot : slotPath s evCacheSlot with
  | error e => simp [hslot, Except.toOption] at h
  | ok p =>
    simp only [hslot, Except.toOption, Option.bind_some] at h
    obtain ⟨hcreate, h⟩ := Option.ite_none_left_eq_some.mp h
    obtain ⟨hdelete, h⟩ := Option.ite_none_left_eq_some.mp h
    rw [processEvent, if_neg hcreate, if_neg hdelete]
    by_cases hmoved : ev.movedFromDir
    · rw [if_pos hmoved] at h ⊢
      rw [processMovedFrom]
      generalize Option.filter (fun nextEv => nextEv.has IN_MOVED_TO && nextEv.cookie == ev.cookie)
        nextEv = partner at h ⊢
      cases partner with
      | some n => cases h
      | none =>
        obtain ⟨hc, heq⟩ := Option.ite_none_right_eq_some.mp h
        cases heq
        dsimp only
        rw [hslot]
        exact if_pos hc
    · rw [if_neg hmoved] at h ⊢
      obtain ⟨hover, h⟩ := Option.ite_none_left_eq_some.mp h
      obtain ⟨hunmount, h⟩ := Option.ite_none_left_eq_some.mp h
      obtain ⟨⟨hself, hroot⟩, h⟩ := Option.ite_none_right_eq_some.mp h
      rw [if_neg hover, if_neg hunmount, if_pos hself]
      simp only [hslot]
      refine (if_pos hroot).trans ?_
      cases hzap : zapRootDirPath s p with
      | error e => simp [hzap] at h
      | ok u =>
        simp only [hzap, Option.map_some, Option.some.injEq, Prod.mk.injEq] at h
        obtain ⟨rfl, rfl⟩ := h
        rfl

/-- An event that zaps nothing removes no watches, whatever the kernel makes of that. -/
theorem processEvent_noZap (rmWatch : κ → Int → Int → Option κ)
    (h : zapOf s evCacheSlot ev nextEv firstTry = none) :
    processEvent { K with rmWatch } s evCacheSlot ev nextEv firstTry =
      processEvent K s evCacheSlot ev nextEv firstTry := by
  rw [zapOf] at h
  rw [processEvent, processEvent]
  refine ite_congr rfl (fun _ => rfl) fun hcreate => ite_congr rfl (fun _ => rfl) fun hdelete =>
    ite_congr rfl (fun hmoved => ?_) fun hmoved => ite_congr rfl (fun _ => rfl) fun hover =>
    ite_congr rfl (fun _ => rfl) fun hunmount => ite_congr rfl (fun hself => ?_) fun _ => rfl
  · rw [processMovedFrom, processMovedFrom]
    split
    · rfl
    · next hnext =>
      refine ite_congr rfl (fun hc => ?_) fun _ => rfl
      cases hslot : slotPath s evCacheSlot with
      | error e => rfl
      | ok p =>
        rw [hslot] at h
        simp [Except.toOption, hcreate, hdelete, hmoved, hnext, hc] at h
  · cases hslot : slotPath s evCacheSlot with
    | error e => rfl
    | ok p =>
      refine ite_congr rfl (fun hroot => ?_) fun _ => rfl
      cases hzap : zapRootDirPath s p with
      | error e => rfl
      | ok u =>
        rw [hslot] at h
        simp [Except.toOption, hcreate, hdelete, hmoved, hover, hunmount, hself, hroot, hzap] at h

theorem processNextInotifyEvent_zap (h : zappedByEvent s ev nextEv firstTry = some (t, path)) :
    processNextInotifyEvent K s ev nextEv firstTry =
      if (zapSubtree K t path).1 = -1 then rebuild K (zapSubtree K t path).2
      else finishEvent K (zapSubtree K t path).2 ev.size := by
  rw [zappedByEvent] at h
  rw [processNextInotifyEvent]
  split at h
  · next hwd =>
    rw [if_pos hwd]
    split at h
    · next slot hslot =>
      rw [hslot]
      exact processEvent_zap h
    · cases h
  · next hwd =>
    rw [if_neg hwd]
    exact processEvent_zap h

theorem processNextInotifyEvent_noZap (rmWatch : κ → Int → Int → Option κ)
    (h : zappedByEvent s ev nextEv firstTry = none) :
    processNextInotifyEvent { K with rmWatch } s ev nextEv firstTry =
      processNextInotifyEvent K s ev nextEv firstTry := by
  rw [zappedByEvent] at h
  rw [processNextInotifyEvent, processNextInotifyEvent]
  refine ite_congr rfl (fun hwd => ?_) fun hwd => processEvent_noZap rmWatch ?_
  · rw [if_pos hwd] at h
    cases hslot : findWatchChecked s ev.wd with
    | error e => rfl
    | ok slot =>
      cases slot with
      | none => rfl
      | some slot =>
        rw [hslot] at h
        exact processEvent_noZap rmWatch h
  · rwa [if_neg hwd] at h

/-- An event whose zap fails leaves what `reinitialize` makes of the half-zapped cache. -/
theorem execMain_rebuilds (h : zappedByEvent s ev nextEv firstTry = some (t, path))
    (hfail : (zapSubtree K t path).1 = -1) : execMain K s (.event ev nextEv firstTry) =
      reinitialize K (zapSubtree K t path).2 (zapSubtree K t path).2.inotifyFd := by
  rw [execMain, processNextInotifyEvent_zap h, if_pos hfail, rebuild]
  cases reinitialize K (zapSubtree K t path).2 (zapSubtree K t path).2.inotifyFd <;> rfl

end

/-- After the initial build, no failed zap is left behind before a further event or command as long
as the kernel removes every watch that a command zaps; and a step from such a state leaves a failed
zap behind exactly if it is a command for which the kernel does not. An event whose zap fails leaves
the cache and the instance that `reinitialize` makes, or ends the program with it. -/
theorem zap_failure_rebuilt (K : Kernel κ) {s₀ s₁ s : State κ}
    (h0 : reinitialize K s₀ (-1) = .ok s₁)
    (h : (mainLoop K).ReachableBy (RemovesZapped K) s₁ s) :
    s.halfZapped = false ∧
      (∀ a t, (mainLoop K).next s a = some t → (t.halfZapped = false ↔ RemovesZapped K s a)) ∧
      ∀ ev nextEv firstTry t path, zappedByEvent s ev nextEv firstTry = some (t, path) →
        (zapSubtree K t path).1 = -1 → execMain K s (.event ev nextEv firstTry) =
          reinitialize K (zapSubtree K t path).2 (zapSubtree K t path).2.inotifyFd := by
  have hinv : s.cache.WF ∧ s.halfZapped = false := by
    refine h.invariant (P := fun s => s.cache.WF ∧ s.halfZapped = false) ?_ ?_
    · obtain ⟨hs, hz⟩ := (reinitialize_spec (-1)).of_ok h0
      exact ⟨hs.wf Cache.wf_freeCache, hz⟩
    · intro s a t ⟨hwf, hs⟩ hok hn
      exact ⟨((execMain_steps s a).of_toOption hn).wf hwf,
        ((execMain_halfZapped hwf hs a).of_toOption hn).mpr hok⟩
  exact ⟨hinv.2, fun a t hn => (execMain_halfZapped hinv.1 hinv.2 a).of_toOption hn,
    fun _ _ _ _ _ => execMain_rebuilds⟩

/-- The program with one root after the initial build of the cache. -/
def oneRootBuilt : State Bool := { oneRoot with
  cache := ⟨⟨1, ['r']⟩ :: List.replicate 199 .empty, 200⟩
  inotifyFd := 3 }

theorem reinitialize_oneRoot : reinitialize oneDir oneRoot (-1) = .ok oneRootBuilt := rfl

/-- The root is zapped by a command while it exists. -/
theorem zap_failure_rebuilt_command :
    RemovesZapped oneDir oneRootBuilt (.command ['z', ' ', 'r', '\n'] []) ∧
    ∃ s, (mainLoop oneDir).next oneRootBuilt (.command ['z', ' ', 'r', '\n'] []) = some s ∧
      (s.cache.findWatch 1).isNone ∧ s.halfZapped = false := by
  have hok : RemovesZapped oneDir oneRootBuilt (.command ['z', ' ', 'r', '\n'] []) :=
    (removesZapped_zap (.inr rfl)).mpr (by decide +kernel)
  obtain ⟨s, hn, hz⟩ := (Option.any_eq_true (fun s => (s.cache.findWatch 1).isNone)
    ((mainLoop oneDir).next oneRootBuilt (.command ['z', ' ', 'r', '\n'] []))).mp (by decide +kernel)
  exact ⟨hok, s, hn, hz, (zap_failure_rebuilt oneDir reinitialize_oneRoot (.step .refl hok hn)).1⟩

/-- The root is removed by another process, and zapped by a command before its `IN_DELETE_SELF` is
read. -/
theorem not_zap_failure_rebuilt : ¬∀ s₁ s, reinitialize oneDir oneRoot (-1) = .ok s₁ →
    (mainLoop oneDir).Reachable s₁ s → s.halfZapped = false := by
  intro h
  obtain ⟨s, hs, hz⟩ := (Machine.Reachable.self (mainLoop oneDir) oneRootBuilt).exists_of_run
    (P := fun s => s.halfZapped = true) [.kernel false, .command ['z', ' ', 'r', '\n'] []]
    ((Option.any_eq_true State.halfZapped _).mp (by decide +kernel))
  simp [h oneRootBuilt s reinitialize_oneRoot hs] at hz

end Tlpi.InotifyDtree
