import Tlpi.Inotify.DtreeRewrite

/-!
# Zapping a subtree in place

The argument of `zapSubtree` may point to the `path` array of an entry that the loop marks as unused.
The loop compares with a copy of the string; it is stated for any `inotify_rm_watch`, which has a
state, and gives up at the first failure.
-/

namespace Tlpi.InotifyDtree.InPlace

variable {n : Nat}

def PathBuf.clear (buf : PathBuf) : PathBuf where
  bytes := buf.bytes.set 0 NUL
  length_eq := by rw [List.length_set, buf.length_eq]
  terminated := List.mem_set (by rw [buf.length_eq]; decide) NUL

/-- `markCacheSlotEmpty`: of the array only the first byte is written. -/
def Slot.markEmpty (w : Slot) : Slot := ⟨-1, w.path.clear⟩

/-- The test of the loop for an entry. -/
def Slot.Matches (pn : CString) (w : Slot) : Prop :=
  0 ≤ w.wd ∧ strncmp pn w.path.bytes pn.length = 0 ∧
    (w.path.bytes[pn.length]? = some '/' ∨ w.path.bytes[pn.length]? = some NUL)

instance (pn : CString) (w : Slot) : Decidable (w.Matches pn) :=
  inferInstanceAs (Decidable (_ ∧ _ ∧ _))

section Loop
variable {σ : Type*} (rm : σ → Int → Option σ)

/-- The loop of `zapSubtree`: the count, the state of `inotify_rm_watch` and the cache. -/
def zapLoop (pn : CString) :
    List (Fin n) → Int → σ → (Fin n → Slot) → Int × σ × (Fin n → Slot)
  | [], cnt, k, wlCache => (cnt, k, wlCache)
  | j :: js, cnt, k, wlCache =>
    if (wlCache j).Matches pn then
      match rm k (wlCache j).wd with
      | none => (-1, k, wlCache)
      | some k => zapLoop pn js (cnt + 1) k (Function.update wlCache j (wlCache j).markEmpty)
    else zapLoop pn js cnt k wlCache

def zapSubtree (k : σ) (wlCache : Fin n → Slot) (path : Pointer n) : Int × σ × (Fin n → Slot) :=
  zapLoop rm (path.read wlCache) (List.finRange n) 0 k wlCache

end Loop

/-- `inotify_rm_watch` with the given results, and the watch descriptors of the calls that have
succeeded. -/
def rmPattern (ok : Nat → Bool) (calls : List Int) (wd : Int) : Option (List Int) :=
  if ok calls.length then some (calls ++ [wd]) else none

/-- The slots of the entries to be removed, in order. -/
def matching (wlCache : Fin n → Slot) (pn : CString) : List (Fin n) :=
  (List.finRange n).filter fun j => (wlCache j).Matches pn

/-! ### The test -/

theorem Slot.matches_iff_under {pn : CString} (h : NUL ∉ pn) (w : Slot) :
    w.Matches pn ↔ 0 ≤ w.wd ∧ Under '/' pn (str w.path.bytes) :=
  and_congr_right fun _ => matches_iff h w.path

theorem str_clear (buf : PathBuf) : str buf.clear.bytes = [] := by
  obtain ⟨bytes, hlen, hnul⟩ := buf
  cases bytes with
  | nil => cases hnul
  | cons b bytes => simp [PathBuf.clear, str]

/-! ### The loop -/

/-- Emptying a slot leaves alone which of the other slots match. -/
theorem filter_update_of_notMem {pn : CString} {wlCache : Fin n → Slot} {j : Fin n} {w : Slot}
    {js : List (Fin n)} (hj : j ∉ js) :
    js.filter (fun i => (Function.update wlCache j w i).Matches pn) =
      js.filter fun i => (wlCache i).Matches pn :=
  List.filter_congr fun i hi => by rw [Function.update_of_ne (ne_of_mem_of_not_mem hi hj)]

/-- Emptying a slot and then those of a list that does not have it. -/
theorem markEmpty_cons {wlCache : Fin n → Slot} {j : Fin n} {l : List (Fin n)} (hj : j ∉ l)
    (i : Fin n) :
    (if i ∈ l then (Function.update wlCache j (wlCache j).markEmpty i).markEmpty
      else Function.update wlCache j (wlCache j).markEmpty i) =
      if i ∈ j :: l then (wlCache i).markEmpty else wlCache i := by
  by_cases hij : i = j
  · subst hij
    rw [if_neg hj, if_pos List.mem_cons_self, Function.update_self]
  · simp only [Function.update_of_ne hij, List.mem_cons, hij, false_or]

theorem zapLoop_rmPattern (ok : Nat → Bool) (pn : CString) {js : List (Fin n)} (hjs : js.Nodup)
    (cnt : Int) (calls : List Int) (wlCache : Fin n → Slot) {k : Nat}
    (hk : k ≤ (js.filter fun j => (wlCache j).Matches pn).length)
    (hok : ∀ i < k, ok (calls.length + i) = true)
    (hend : k = (js.filter fun j => (wlCache j).Matches pn).length ∨ ok (calls.length + k) = false) :
    zapLoop (rmPattern ok) pn js cnt calls wlCache =
      (if k = (js.filter fun j => (wlCache j).Matches pn).length then cnt + k else -1,
        calls ++ ((js.filter fun j => (wlCache j).Matches pn).take k).map fun j => (wlCache j).wd,
        fun j => if j ∈ (js.filter fun j => (wlCache j).Matches pn).take k then (wlCache j).markEmpty
          else wlCache j) := by
  induction js generalizing cnt calls wlCache k with
  | nil =>
    obtain rfl : k = 0 := by simpa using hk
    simp [zapLoop]
  | cons j js ih =>
    obtain ⟨hj, hjs⟩ := List.nodup_cons.mp hjs
    rw [zapLoop]
    by_cases hm : (wlCache j).Matches pn
    · have hfilter : js.filter (fun i =>
          (Function.update wlCache j (wlCache j).markEmpty i).Matches pn) =
          js.filter fun i => (wlCache i).Matches pn := filter_update_of_notMem hj
      rw [List.filter_cons_of_pos (by simpa using hm)] at hk hend ⊢
      rw [if_pos hm, rmPattern]
      cases k with
      | zero =>
        have hfail : ok calls.length = false := hend.resolve_left nofun
        simp [hfail]
      | succ k =>
        have hcall : ok calls.length = true := hok 0 (Nat.succ_pos k)
        rw [if_pos hcall]
        simp only
        rw [ih hjs (k := k) (cnt + 1) (calls ++ [(wlCache j).wd]), hfilter]
        · have hnot : j ∉ (js.filter fun i => (wlCache i).Matches pn).take k :=
            fun hi => hj (List.mem_filter.mp (List.mem_of_mem_take hi)).1
          refine Prod.ext ?_ (Prod.ext ?_ (funext (markEmpty_cons hnot)))
          · simp only [List.length_cons, Nat.add_right_cancel_iff]
            rw [Int.add_assoc, Int.add_comm 1]
            rfl
          · simp only [List.take_succ_cons, List.map_cons]
            rw [List.append_assoc, List.singleton_append, List.map_congr_left fun i hi => by
              rw [Function.update_of_ne (ne_of_mem_of_not_mem hi hnot)]]
        · rw [hfilter]
          exact Nat.le_of_succ_le_succ hk
        · intro i hi
          have := hok (i + 1) (Nat.succ_lt_succ hi)
          rwa [List.length_append, List.length_singleton, Nat.add_assoc, Nat.add_comm 1]
        · rw [hfilter, List.length_append, List.length_singleton, Nat.add_assoc, Nat.add_comm 1]
          exact hend.imp_left Nat.succ.inj
    · rw [if_neg hm]
      have hfilter : (j :: js).filter (fun j => (wlCache j).Matches pn) =
          js.filter fun j => (wlCache j).Matches pn := List.filter_cons_of_neg (by simpa using hm)
      rw [hfilter] at hk hend ⊢
      exact ih hjs cnt calls wlCache hk hok hend

/-- The slots before the `k`-th of a sorted list are its first `k` members. -/
theorem mem_take_iff_lt {l : List (Fin n)} (hl : l.Pairwise (· < ·)) {k : Nat} (hk : k < l.length)
    (j : Fin n) : j ∈ l.take k ↔ j ∈ l ∧ j < l[k] := by
  have hsplit : l = l.take k ++ l[k] :: l.drop (k + 1) := by
    rw [← List.drop_eq_getElem_cons hk, List.take_append_drop]
  have hpw := hl
  rw [hsplit, List.pairwise_append, List.pairwise_cons] at hpw
  obtain ⟨-, ⟨hdrop, -⟩, htake⟩ := hpw
  constructor
  · intro hj
    exact ⟨List.mem_of_mem_take hj, htake j hj _ List.mem_cons_self⟩
  · rintro ⟨hj, hlt⟩
    rw [hsplit, List.mem_append, List.mem_cons] at hj
    rcases hj with hj | rfl | hj
    · exact hj
    · exact absurd hlt (lt_irrefl _)
    · exact absurd hlt (lt_asymm (hdrop j hj))

theorem pairwise_matching (wlCache : Fin n → Slot) (pn : CString) :
    (matching wlCache pn).Pairwise (· < ·) :=
  (List.pairwise_lt_finRange n).filter _

theorem mem_matching {wlCache : Fin n → Slot} {path : Pointer n} {j : Fin n} :
    j ∈ matching wlCache (path.read wlCache) ↔
      0 ≤ (wlCache j).wd ∧ Under '/' (path.read wlCache) (str (wlCache j).path.bytes) := by
  rw [matching, List.mem_filter, decide_eq_true_iff, Slot.matches_iff_under
    (path.nul_notMem_read wlCache)]
  exact and_iff_right (List.mem_finRange j)

/-- What `zapSubtree` does when `k` of its calls succeed, all of them or those before the first that
fails. -/
theorem zapSubtree_rmPattern {ok : Nat → Bool} {wlCache : Fin n → Slot} {path : Pointer n} {k : Nat}
    (hk : k ≤ (matching wlCache (path.read wlCache)).length) (hok : ∀ i < k, ok i = true)
    (hend : k = (matching wlCache (path.read wlCache)).length ∨ ok k = false) :
    zapSubtree (rmPattern ok) [] wlCache path =
      (if k = (matching wlCache (path.read wlCache)).length then (k : Int) else -1,
        ((matching wlCache (path.read wlCache)).take k).map fun j => (wlCache j).wd,
        fun j => if j ∈ (matching wlCache (path.read wlCache)).take k then (wlCache j).markEmpty
          else wlCache j) := by
  have hcall : ∀ i, ok (([] : List Int).length + i) = ok i := fun i => by rw [List.length_nil,
    Nat.zero_add]
  have h := zapLoop_rmPattern ok (path.read wlCache) (List.nodup_finRange n) 0 [] wlCache hk
    (fun i hi => (hcall i).trans (hok i hi)) (hend.imp_right (hcall k).trans)
  rw [Int.zero_add, List.nil_append] at h
  exact h

/-- `zapSubtree` removes the entries of its argument's subtree, with one call for each; when a call
fails, it has removed those in the slots before. -/
theorem zapSubtree_removes_subtree (ok : Nat → Bool) (wlCache : Fin n → Slot) (path : Pointer n) :
    (∀ j, j ∈ matching wlCache (path.read wlCache) ↔
      0 ≤ (wlCache j).wd ∧ Under '/' (path.read wlCache) (str (wlCache j).path.bytes)) ∧
    ((∀ i < (matching wlCache (path.read wlCache)).length, ok i = true) →
      (zapSubtree (rmPattern ok) [] wlCache path).1 =
          (matching wlCache (path.read wlCache)).length ∧
        (zapSubtree (rmPattern ok) [] wlCache path).2.1.length =
          (matching wlCache (path.read wlCache)).length ∧
        (∀ j, (zapSubtree (rmPattern ok) [] wlCache path).2.2 j =
          if j ∈ matching wlCache (path.read wlCache) then (wlCache j).markEmpty else wlCache j) ∧
        ∀ j, 0 ≤ ((zapSubtree (rmPattern ok) [] wlCache path).2.2 j).wd →
          ¬Under '/' (path.read wlCache)
            (str ((zapSubtree (rmPattern ok) [] wlCache path).2.2 j).path.bytes)) ∧
    ∀ k (hk : k < (matching wlCache (path.read wlCache)).length), (∀ i < k, ok i = true) →
      ok k = false →
      (zapSubtree (rmPattern ok) [] wlCache path).1 = -1 ∧
        ∀ j, (zapSubtree (rmPattern ok) [] wlCache path).2.2 j =
          if j ∈ matching wlCache (path.read wlCache) ∧
              j < (matching wlCache (path.read wlCache)).get ⟨k, hk⟩
            then (wlCache j).markEmpty else wlCache j := by
  refine ⟨fun j => mem_matching, fun hok => ?_, fun k hk hok hfail => ?_⟩
  · rw [zapSubtree_rmPattern (Nat.le_refl _) hok (.inl rfl), List.take_length]
    refine ⟨if_pos rfl, by rw [List.length_map], fun j => rfl, fun j hwd hunder => ?_⟩
    simp only at hwd hunder
    split at hwd
    · exact absurd hwd (show ¬(0 : Int) ≤ -1 by decide)
    · rename_i hj
      rw [if_neg hj] at hunder
      exact hj (mem_matching.mpr ⟨hwd, hunder⟩)
  · rw [zapSubtree_rmPattern hk.le hok (.inr hfail)]
    refine ⟨if_neg hk.ne, fun j => ?_⟩
    simp only [mem_take_iff_lt (pairwise_matching _ _) hk]
    rfl

/-- The entries of `a/b` and of the directory below it are removed; the argument is the first of
them. -/
theorem zapSubtree_removes_subtree_small :
    (∀ i < (matching smallCache ((Pointer.cached 1).read smallCache)).length,
      (fun _ => true) i = true) ∧
    (zapSubtree (rmPattern fun _ => true) [] smallCache (.cached 1)).1 =
      (matching smallCache ((Pointer.cached 1).read smallCache)).length :=
  ⟨fun _ _ => rfl,
    ((zapSubtree_removes_subtree (fun _ => true) smallCache (.cached 1)).2.1 fun _ _ => rfl).1⟩

/-! ### The strings -/

theorem Slot.decode_markEmpty (w : Slot) : w.markEmpty.decode = .empty := by
  rw [Slot.decode, Slot.markEmpty, str_clear]
  rfl

theorem decode_update (wlCache : Fin n → Slot) (j : Fin n) :
    decode (Function.update wlCache j (wlCache j).markEmpty) =
      (decode wlCache).markCacheSlotEmpty j := by
  rw [decode, decode, Cache.markCacheSlotEmpty, Cache.mk.injEq]
  refine ⟨List.ext_getElem (by simp) fun i hi hi' => ?_, rfl⟩
  rw [List.getElem_ofFn, List.getElem_set, List.getElem_ofFn]
  by_cases h : j.val = i
  · subst h
    rw [if_pos rfl, Function.update_self, Slot.decode_markEmpty]
  · rw [if_neg h, Function.update_of_ne (fun heq => h (congrArg Fin.val heq).symm)]

theorem decode_zapLoop {κ : Type} (K : Kernel κ) {pn : CString} (hpn : NUL ∉ pn) (js : List (Fin n))
    (cnt : Int) (s : State κ) (wlCache : Fin n → Slot) (hs : s.cache = decode wlCache) :
    (zapSlots K pn (js.map Fin.val) cnt s).1 =
        (zapLoop (fun k wd => K.rmWatch k s.inotifyFd wd) pn js cnt s.kernel wlCache).1 ∧
      (zapSlots K pn (js.map Fin.val) cnt s).2.kernel =
        (zapLoop (fun k wd => K.rmWatch k s.inotifyFd wd) pn js cnt s.kernel wlCache).2.1 ∧
      (zapSlots K pn (js.map Fin.val) cnt s).2.cache = decode
        (zapLoop (fun k wd => K.rmWatch k s.inotifyFd wd) pn js cnt s.kernel wlCache).2.2 := by
  induction js generalizing cnt s wlCache with
  | nil => exact ⟨rfl, rfl, hs⟩
  | cons j js ih =>
    have hget : s.cache.wlCache[j.val]? = some (wlCache j).decode := by
      rw [hs, decode, List.getElem?_ofFn, dif_pos j.isLt]
    have htest : (0 ≤ (wlCache j).decode.wd ∧ isUnder pn (wlCache j).decode.path) ↔
        (wlCache j).Matches pn := by
      rw [Slot.matches_iff_under hpn, isUnder_iff]
      rfl
    rw [List.map_cons, zapSlots, hget, zapLoop]
    simp only [htest]
    by_cases hm : (wlCache j).Matches pn
    · rw [if_pos hm, if_pos hm]
      simp only [Slot.decode]
      cases hrm : K.rmWatch s.kernel s.inotifyFd (wlCache j).wd with
      | none => exact ⟨rfl, rfl, hs⟩
      | some k =>
        exact ih (cnt + 1) { s with kernel := k, cache := s.cache.markCacheSlotEmpty j } _
          (by simp only [hs, decode_update])
    · rw [if_neg hm, if_neg hm]
      exact ih cnt s wlCache hs

/-- In memory and wherever its argument points, `zapSubtree` does what it does to the strings. -/
theorem decode_zapSubtree {κ : Type} (K : Kernel κ) (s : State κ) (wlCache : Fin n → Slot)
    (path : Pointer n) (hs : s.cache = decode wlCache) :
    (InotifyDtree.zapSubtree K s (path.read wlCache)).1 =
        (zapSubtree (fun k wd => K.rmWatch k s.inotifyFd wd) s.kernel wlCache path).1 ∧
      (InotifyDtree.zapSubtree K s (path.read wlCache)).2.cache = decode
        (zapSubtree (fun k wd => K.rmWatch k s.inotifyFd wd) s.kernel wlCache path).2.2 := by
  have hrange : List.range s.cache.cacheSize = (List.finRange n).map Fin.val := by
    rw [hs, decode, List.map_coe_finRange_eq_range]
  rw [InotifyDtree.zapSubtree, hrange]
  obtain ⟨hcnt, -, hcache⟩ := decode_zapLoop K (path.nul_notMem_read wlCache) (List.finRange n) 0 s
    wlCache hs
  exact ⟨hcnt, hcache⟩

end Tlpi.InotifyDtree.InPlace
