import Mathlib.Data.List.FinRange
import Mathlib.Data.List.TakeWhile
import Tlpi.Inotify.DtreeView

/-!
# Rewriting the cached pathnames in place

The arguments of `rewriteCachedPaths` are pointers, and its caller passes pointers to the `path`
arrays of two entries that the loop may overwrite. Here the cache is what it is in memory: an entry
has the `PATH_MAX` bytes of its array, and a pointer is to a string elsewhere or to an entry. The
prefixes are copied to local arrays before the loop and a step of the loop looks at no other entry,
so the pointers do not matter (`decode_rewriteCachedPaths`).
-/

namespace Tlpi.InotifyDtree.InPlace

def NUL : Char := Char.ofNat 0

/-- An array `char path[PATH_MAX]` that holds a string. -/
structure PathBuf where
  bytes : List Char
  length_eq : bytes.length = PATH_MAX
  terminated : NUL ∈ bytes

/-- The string that starts at the beginning of `bytes`. -/
def str (bytes : List Char) : CString := bytes.takeWhile (· ≠ NUL)

/-- An entry of `wlCache`. -/
structure Slot where
  wd : Int
  path : PathBuf

/-- A `const char *`, with a cache of `n` entries. -/
inductive Pointer (n : Nat)
  | text (s : CString) (h : NUL ∉ s)
  | cached (j : Fin n)

variable {n : Nat}

def Pointer.read (wlCache : Fin n → Slot) : Pointer n → CString
  | text s _ => s
  | cached j => str (wlCache j).path.bytes

/-- `strncmp`; an array is not read beyond the terminator. -/
def strncmp : List Char → List Char → Nat → Int
  | a :: s, b :: t, k + 1 =>
    if a ≠ b then a.toNat - b.toNat else if a = NUL then 0 else strncmp s t k
  | _, _, _ => 0

theorem length_snprintf_lt (text : CString) : (snprintf PATH_MAX text).length < PATH_MAX := by
  rw [snprintf, List.length_take]
  exact lt_of_le_of_lt (min_le_left _ _) (by decide)

/-- `strncpy` of `PATH_MAX` bytes, which are filled up with NULs. -/
def PathBuf.strncpy (src : CString) (h : src.length < PATH_MAX) : PathBuf where
  bytes := src ++ List.replicate (PATH_MAX - src.length) NUL
  length_eq := by
    rw [List.length_append, List.length_replicate]
    omega
  terminated := by
    refine List.mem_append_right _ (List.mem_replicate.mpr ⟨?_, rfl⟩)
    omega

/-- The body of the loop, for the entry `w`. -/
def Slot.rewrite (fullPath newPrefix : CString) (w : Slot) : Slot :=
  let len := fullPath.length
  if strncmp fullPath w.path.bytes len = 0 ∧
      (w.path.bytes[len]? = some '/' ∨ w.path.bytes[len]? = some NUL) then
    let newPath := snprintf PATH_MAX (newPrefix ++ str (w.path.bytes.drop len))
    { w with path := .strncpy newPath (length_snprintf_lt _) }
  else w

def rewriteCachedPaths (wlCache : Fin n → Slot)
    (oldPathPrefix oldName newPathPrefix newName : Pointer n) : Fin n → Slot :=
  let fullPath := snprintf PATH_MAX (oldPathPrefix.read wlCache ++ '/' :: oldName.read wlCache)
  let newPrefix := snprintf PATH_MAX (newPathPrefix.read wlCache ++ '/' :: newName.read wlCache)
  (List.finRange n).foldl
    (fun wlCache j => Function.update wlCache j ((wlCache j).rewrite fullPath newPrefix)) wlCache

/-! ### The strings in the arrays -/

theorem nul_notMem_str (bytes : List Char) : NUL ∉ str bytes := by
  intro h
  simpa using List.mem_takeWhile_imp h

theorem Pointer.nul_notMem_read (wlCache : Fin n → Slot) (p : Pointer n) :
    NUL ∉ p.read wlCache := by
  cases p with
  | text s h => exact h
  | cached j => exact nul_notMem_str _

theorem str_append_nul {s : CString} (h : NUL ∉ s) (rest : List Char) :
    str (s ++ NUL :: rest) = s := by
  rw [str, List.takeWhile_append_of_pos]
  · simp
  · intro c hc
    simpa using ne_of_mem_of_not_mem hc h

/-- The string of an array, its terminator and the bytes after it. -/
theorem exists_eq_append_nul {bytes : List Char} (h : NUL ∈ bytes) :
    ∃ rest, bytes = str bytes ++ NUL :: rest := by
  induction bytes with
  | nil => cases h
  | cons b bytes ih =>
    by_cases hb : b = NUL
    · subst hb
      exact ⟨bytes, by simp [str]⟩
    · obtain ⟨rest, hrest⟩ := ih ((List.mem_cons.mp h).resolve_left (Ne.symm hb))
      refine ⟨rest, ?_⟩
      have : str (b :: bytes) = b :: str bytes := by simp [str, hb]
      rw [this, List.cons_append, ← hrest]

theorem PathBuf.str_strncpy {src : CString} (h : src.length < PATH_MAX) (hnul : NUL ∉ src) :
    str (PathBuf.strncpy src h).bytes = src := by
  obtain ⟨k, hk⟩ : ∃ k, PATH_MAX - src.length = k + 1 := ⟨PATH_MAX - src.length - 1, by omega⟩
  have hbytes : (PathBuf.strncpy src h).bytes = src ++ NUL :: List.replicate k NUL := by
    simp only [PathBuf.strncpy, hk, List.replicate_succ]
  rw [hbytes, str_append_nul hnul]

theorem strncmp_eq_zero_iff {s bytes : List Char} (hs : NUL ∉ s) (hbytes : NUL ∈ bytes) :
    strncmp s bytes s.length = 0 ↔ s <+: bytes := by
  induction s generalizing bytes with
  | nil => simp [strncmp]
  | cons a s ih =>
    cases bytes with
    | nil => simp at hbytes
    | cons b bytes =>
      have ha : a ≠ NUL := fun h => hs (h ▸ List.mem_cons_self)
      rw [List.length_cons, strncmp, List.cons_prefix_cons]
      by_cases hab : a = b
      · have hmem : NUL ∈ bytes := (List.mem_cons.mp hbytes).resolve_left (hab ▸ ha.symm)
        rw [if_neg (not_not.mpr hab), if_neg ha, ih (fun h => hs (List.mem_cons_of_mem a h)) hmem]
        simp [hab]
      · have : (a.toNat : Int) - b.toNat ≠ 0 := fun h => hab (Char.toNat_inj.mp (by omega))
        rw [if_pos hab]
        simp [this, hab]

/-- A string that the bytes start with ends before their terminator. -/
theorem prefix_of_append_nul {p s t rest : List Char} (hp : NUL ∉ p)
    (h : p ++ t = s ++ NUL :: rest) : ∃ v, s = p ++ v := by
  obtain ⟨v, hv, -⟩ | ⟨v, hv, ht⟩ := List.append_eq_append_iff.mp h
  · exact ⟨v, hv⟩
  · cases v with
    | nil => exact ⟨[], by simpa using hv.symm⟩
    | cons c v =>
      obtain rfl : NUL = c := (List.cons.inj ht).1
      exact absurd (hv ▸ List.mem_append_right _ List.mem_cons_self) hp

/-- The test of the loop, on the bytes, is the one on the strings. -/
theorem matches_iff {fullPath : CString} (hnul : NUL ∉ fullPath) (buf : PathBuf) :
    (strncmp fullPath buf.bytes fullPath.length = 0 ∧
      (buf.bytes[fullPath.length]? = some '/' ∨ buf.bytes[fullPath.length]? = some NUL)) ↔
    Under '/' fullPath (str buf.bytes) := by
  obtain ⟨rest, hbytes⟩ := exists_eq_append_nul buf.terminated
  rw [strncmp_eq_zero_iff hnul buf.terminated]
  constructor
  · rintro ⟨⟨t, ht⟩, hnext⟩
    obtain ⟨v, hv⟩ : ∃ v, str buf.bytes = fullPath ++ v :=
      prefix_of_append_nul hnul (ht.trans hbytes)
    refine ⟨v, hv, ?_⟩
    cases v with
    | nil => exact .inl rfl
    | cons c u =>
      have hc : buf.bytes[fullPath.length]? = some c := by
        rw [hbytes, hv]
        simp
      have hne : c ≠ NUL := by
        rintro rfl
        exact nul_notMem_str buf.bytes (hv ▸ List.mem_append_right _ List.mem_cons_self)
      rw [hc, Option.some.injEq, Option.some.injEq] at hnext
      exact .inr ⟨u, by rw [hnext.resolve_right hne]⟩
  · rintro ⟨t, ht, h⟩
    rw [ht] at hbytes
    rw [hbytes]
    rcases h with rfl | ⟨u, rfl⟩
    · simp
    · simp

/-- The rest of the string, after its first `len` characters. -/
theorem str_drop {bytes : List Char} (h : NUL ∈ bytes) {len : Nat}
    (hlen : len ≤ (str bytes).length) : str (bytes.drop len) = (str bytes).drop len := by
  obtain ⟨rest, hbytes⟩ := exists_eq_append_nul h
  have hdrop : NUL ∉ (str bytes).drop len :=
    fun hmem => nul_notMem_str bytes (List.mem_of_mem_drop hmem)
  conv_lhs => rw [hbytes, List.drop_append_of_le_length hlen, str_append_nul hdrop]

/-! ### The loop -/

/-- What the pathnames of `Cache` are about. -/
def Slot.decode (w : Slot) : Watch := ⟨w.wd, str w.path.bytes⟩

theorem nul_notMem_snprintf {size : Nat} {text : CString} (h : NUL ∉ text) :
    NUL ∉ snprintf size text := fun hmem => h (List.mem_of_mem_take hmem)

theorem Slot.decode_rewrite {fullPath newPrefix : CString} (hfull : NUL ∉ fullPath)
    (hnew : NUL ∉ newPrefix) (w : Slot) :
    (w.rewrite fullPath newPrefix).decode = w.decode.rewrite fullPath newPrefix := by
  have hiff := (matches_iff hfull w.path).trans isUnder_iff.symm
  rw [Slot.rewrite, Watch.rewrite]
  simp only [hiff]
  by_cases h : isUnder fullPath (str w.path.bytes)
  · have hle := (isUnder_iff.mp h).length_le
    have hnul : NUL ∉ snprintf PATH_MAX (newPrefix ++ (str w.path.bytes).drop fullPath.length) := by
      refine nul_notMem_snprintf fun hmem => ?_
      rcases List.mem_append.mp hmem with hmem | hmem
      · exact hnew hmem
      · exact nul_notMem_str _ (List.mem_of_mem_drop hmem)
    simp only [Slot.decode, h, if_true, str_drop w.path.terminated hle]
    rw [PathBuf.str_strncpy _ hnul, strncpy_of_le (length_snprintf_lt _).le]
  · simp only [Slot.decode, h]
    rfl

theorem Slot.rewrite_wd (fullPath newPrefix : CString) (w : Slot) :
    (w.rewrite fullPath newPrefix).wd = w.wd := by
  rw [Slot.rewrite]
  split <;> rfl

theorem Slot.rewrite_of_not_under {fullPath : CString} (hfull : NUL ∉ fullPath)
    (newPrefix : CString) {w : Slot}
    (h : ¬Under '/' fullPath (str w.path.bytes)) : w.rewrite fullPath newPrefix = w := by
  rw [Slot.rewrite]
  exact if_neg (mt (matches_iff hfull w.path).mp h)

theorem Slot.str_rewrite_of_under {fullPath newPrefix rest : CString} (hfull : NUL ∉ fullPath)
    (hnew : NUL ∉ newPrefix) {w : Slot}
    (hw : str w.path.bytes = fullPath ++ rest) (hrest : rest = [] ∨ ∃ u, rest = '/' :: u)
    (hfits : (newPrefix ++ rest).length < PATH_MAX) :
    str (w.rewrite fullPath newPrefix).path.bytes = newPrefix ++ rest := by
  have hdrop : newPrefix ++ (str w.path.bytes).drop fullPath.length = newPrefix ++ rest := by
    rw [hw, List.drop_left]
  have h := congrArg Watch.path (Slot.decode_rewrite hfull hnew w)
  rw [Watch.rewrite_eq] at h
  rw [← hdrop] at hfits ⊢
  exact h.trans (rewritePath_of_under ⟨rest, hw, hrest⟩ hfits)

/-- A loop that replaces entries, each by a function of the entry itself. -/
theorem foldl_update_of_nodup {ι α : Type*} [DecidableEq ι] (f : α → α) {l : List ι}
    (hl : l.Nodup) (a : ι → α) :
    l.foldl (fun a j => Function.update a j (f (a j))) a =
      fun j => if j ∈ l then f (a j) else a j := by
  induction l generalizing a with
  | nil => simp
  | cons i l ih =>
    obtain ⟨hi, hl⟩ := List.nodup_cons.mp hl
    rw [List.foldl_cons, ih hl]
    funext j
    by_cases hj : j = i
    · subst hj
      simp [hi]
    · simp [hj]

section
variable (wlCache : Fin n → Slot) (oldPathPrefix oldName newPathPrefix newName : Pointer n)

/-- The pathname that two arguments give. -/
def composed (pathPrefix name : Pointer n) : CString :=
  pathPrefix.read wlCache ++ '/' :: name.read wlCache

/-- Every entry is rewritten from what it was before the loop. -/
theorem rewriteCachedPaths_apply (j : Fin n) :
    rewriteCachedPaths wlCache oldPathPrefix oldName newPathPrefix newName j =
      (wlCache j).rewrite (snprintf PATH_MAX (composed wlCache oldPathPrefix oldName))
        (snprintf PATH_MAX (composed wlCache newPathPrefix newName)) := by
  rw [rewriteCachedPaths, foldl_update_of_nodup _ (List.nodup_finRange n)]
  exact if_pos (List.mem_finRange j)

theorem nul_notMem_composed (pathPrefix name : Pointer n) :
    NUL ∉ composed wlCache pathPrefix name := by
  intro h
  rcases List.mem_append.mp h with h | h
  · exact pathPrefix.nul_notMem_read wlCache h
  · refine name.nul_notMem_read wlCache ((List.mem_cons.mp h).resolve_left ?_)
    decide

/-- The cache of the strings. -/
def decode : Cache := ⟨List.ofFn fun j => (wlCache j).decode, n⟩

/-- In memory and wherever its arguments point, `rewriteCachedPaths` does what it does to the
strings. -/
theorem decode_rewriteCachedPaths :
    decode (rewriteCachedPaths wlCache oldPathPrefix oldName newPathPrefix newName) =
      (decode wlCache).rewriteCachedPaths (oldPathPrefix.read wlCache) (oldName.read wlCache)
        (newPathPrefix.read wlCache) (newName.read wlCache) := by
  have hslot : ∀ j,
      (rewriteCachedPaths wlCache oldPathPrefix oldName newPathPrefix newName j).decode =
        (wlCache j).decode.rewrite (snprintf PATH_MAX (composed wlCache oldPathPrefix oldName))
          (snprintf PATH_MAX (composed wlCache newPathPrefix newName)) := by
    intro j
    rw [rewriteCachedPaths_apply]
    exact Slot.decode_rewrite (nul_notMem_snprintf (nul_notMem_composed _ _ _))
      (nul_notMem_snprintf (nul_notMem_composed _ _ _)) _
  simp only [decode, hslot, Cache.rewriteCachedPaths, Cache.slots]
  rw [List.take_of_length_le (by simp), List.drop_of_length_le (by simp), List.map_ofFn,
    List.append_nil]
  rfl

end

/-- The subtree `old` is renamed to `new`, and nothing else happens. -/
structure Renames (old new : CString) (wlCache wlCache' : Fin n → Slot) : Prop where
  moved : ∀ j rest, (wlCache j).wd ≠ -1 → str (wlCache j).path.bytes = old ++ rest →
    (rest = [] ∨ ∃ u, rest = '/' :: u) → str (wlCache' j).path.bytes = new ++ rest
  kept : ∀ j, ((wlCache j).wd ≠ -1 → ∀ rest, str (wlCache j).path.bytes = old ++ rest →
    ¬(rest = [] ∨ ∃ u, rest = '/' :: u)) → wlCache' j = wlCache j
  wd : ∀ j, (wlCache' j).wd = (wlCache j).wd
  unused : ∀ j, (wlCache j).wd = -1 → str (wlCache' j).path.bytes = []

section
variable {wlCache : Fin n → Slot} {oldPathPrefix oldName newPathPrefix newName : Pointer n}

theorem rewriteCachedPaths_renames
    (hunused : ∀ j, (wlCache j).wd = -1 ↔ str (wlCache j).path.bytes = [])
    (hold : (composed wlCache oldPathPrefix oldName).length < PATH_MAX)
    (hnew : (composed wlCache newPathPrefix newName).length < PATH_MAX)
    (hmoved : ∀ j rest,
      str (wlCache j).path.bytes = composed wlCache oldPathPrefix oldName ++ rest →
      (rest = [] ∨ ∃ u, rest = '/' :: u) →
      (composed wlCache newPathPrefix newName ++ rest).length < PATH_MAX) :
    Renames (composed wlCache oldPathPrefix oldName) (composed wlCache newPathPrefix newName)
      wlCache (rewriteCachedPaths wlCache oldPathPrefix oldName newPathPrefix newName) := by
  have hslot : ∀ j, rewriteCachedPaths wlCache oldPathPrefix oldName newPathPrefix newName j =
      (wlCache j).rewrite (composed wlCache oldPathPrefix oldName)
        (composed wlCache newPathPrefix newName) := by
    intro j
    rw [rewriteCachedPaths_apply, snprintf_of_lt hold, snprintf_of_lt hnew]
  have hkept : ∀ j, ¬Under '/' (composed wlCache oldPathPrefix oldName)
        (str (wlCache j).path.bytes) →
      rewriteCachedPaths wlCache oldPathPrefix oldName newPathPrefix newName j = wlCache j := by
    intro j h
    rw [hslot]
    exact Slot.rewrite_of_not_under (nul_notMem_composed _ _ _) _ h
  have hempty : ∀ j, (wlCache j).wd = -1 →
      ¬Under '/' (composed wlCache oldPathPrefix oldName) (str (wlCache j).path.bytes) := by
    rintro j hwd ⟨rest, hrest, -⟩
    rw [(hunused j).mp hwd, composed] at hrest
    simp at hrest
  refine ⟨?_, ?_, ?_, ?_⟩
  · intro j rest hwd hpath hrest
    rw [hslot]
    exact Slot.str_rewrite_of_under (nul_notMem_composed _ _ _) (nul_notMem_composed _ _ _)
      hpath hrest (hmoved j rest hpath hrest)
  · intro j h
    refine hkept j fun hu => ?_
    obtain ⟨rest, hpath, hrest⟩ := id hu
    exact h (fun hwd => hempty j hwd hu) rest hpath hrest
  · intro j
    rw [hslot, Slot.rewrite_wd]
  · intro j hwd
    rw [hkept j (hempty j hwd), (hunused j).mp hwd]

end

/-- The strings of a cache with a directory `a/b`, a directory below it and one beside it whose name
begins with `b`; the last entry is unused. -/
def smallPaths : Fin 5 → CString
  | 0 => ['a']
  | 1 => ['a', '/', 'b']
  | 2 => ['a', '/', 'b', '/', 'c']
  | 3 => ['a', '/', 'b', 'c']
  | 4 => []

theorem smallPaths_lt (j : Fin 5) : (smallPaths j).length < PATH_MAX := by
  revert j
  decide

def smallCache (j : Fin 5) : Slot where
  wd := if j = 4 then -1 else j + 1
  path := .strncpy (smallPaths j) (smallPaths_lt j)

theorem str_smallCache (j : Fin 5) : str (smallCache j).path.bytes = smallPaths j :=
  PathBuf.str_strncpy (smallPaths_lt j) (by revert j; decide)

/-- `a/b` is renamed to `a/b/x`; the new prefix is the entry that the loop overwrites first. -/
theorem rewriteCachedPaths_renames_small :
    Renames ['a', '/', 'b'] ['a', '/', 'b', '/', 'x'] smallCache
      (rewriteCachedPaths smallCache (.cached 0) (.text ['b'] (by decide)) (.cached 1)
        (.text ['x'] (by decide))) := by
  have hold : composed smallCache (.cached 0) (.text ['b'] (by decide)) = ['a', '/', 'b'] := by
    rw [composed]
    exact congrArg (· ++ ['/', 'b']) (str_smallCache 0)
  have hnew : composed smallCache (.cached 1) (.text ['x'] (by decide)) =
      ['a', '/', 'b', '/', 'x'] := by
    rw [composed]
    exact congrArg (· ++ ['/', 'x']) (str_smallCache 1)
  rw [← hold, ← hnew]
  refine rewriteCachedPaths_renames ?_ ?_ ?_ ?_
  · intro j
    rw [str_smallCache]
    revert j
    decide
  · rw [hold]
    decide
  · rw [hnew]
    decide
  · intro j rest hrest _
    rw [str_smallCache, hold] at hrest
    have hshort : ∀ j, (smallPaths j).length ≤ 5 := by decide
    have hlen := hshort j
    rw [hrest, List.length_append] at hlen
    rw [hnew, List.length_append]
    exact lt_of_le_of_lt (Nat.add_le_add_left (Nat.le_of_add_left_le hlen) _) (by decide)

end Tlpi.InotifyDtree.InPlace
