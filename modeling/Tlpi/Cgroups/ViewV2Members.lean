import Mathlib.Data.List.Perm.Basic
import Mathlib.Data.List.Sort
import Tlpi.Cgroups.ViewV2Display
import Tlpi.Lib.Cut
import Tlpi.Lib.GoWords

/-!
# The members of a cgroup (`displayProcesses` and `displayThreads` of `view_v2_cgroups.go`)

The kernel lists the members in any order, one number a line. What is displayed is the sorted list,
wrapped into lines; with the lines joined again it is the list on one line.
-/

namespace Tlpi.ViewV2Cgroups

open Go

/-- `cgroup.procs` or `cgroup.threads` as the kernel writes it. -/
def idFile (ids : List Nat) : Str := ids.flatMap fun n => itoa n ++ [10]

/-- The scheduling policies of the kernel. -/
inductive Policy where
  | other
  | fifo
  | rr
  | batch
  | idle
  | deadline
  | ext
  deriving DecidableEq

def Policy.number : Policy → Nat
  | other => 0
  | fifo => 1
  | rr => 2
  | batch => 3
  | idle => 5
  | deadline => 6
  | ext => 7

def Policy.Realtime (p : Policy) : Prop := p = fifo ∨ p = rr ∨ p = deadline

instance : DecidablePred Policy.Realtime := fun _ => inferInstanceAs (Decidable (_ ∨ _ ∨ _))

def SCHED_RESET_ON_FORK : Nat := 0x40000000

/-- A thread as the kernel has it. -/
structure Thread where
  tgid : Nat
  tgid_lt : tgid < 2 ^ 31
  policy : Policy
  resetOnFork : Bool

/-- What `sched_getscheduler` returns for a thread. -/
def Thread.getscheduler (t : Thread) : Nat :=
  t.policy.number + if t.resetOnFork then SCHED_RESET_ON_FORK else 0

/-- The host has the thread `t` under the number `tid`; the line `Tgid:` of its status is the first
of this name. -/
structure Host.Has (host : Host) (tid : Int) (t : Thread) : Prop where
  status : ∃ (before : List Str) (after : Str),
    host.status tid = some (before.flatMap (· ++ [10]) ++
      (ascii "Tgid:\t" ++ itoa t.tgid ++ 10 :: after)) ∧
    ∀ line ∈ before, 10 ∉ line ∧ ¬(ascii "Tgid:").isPrefixOf line
  policy : host.policy tid = some t.getscheduler

/-- Whether a thread gets a star: the flag `SCHED_RESET_ON_FORK` makes its policy look like another
one. -/
def Thread.starred (t : Thread) : Bool := decide t.policy.Realtime && !t.resetOnFork

/-- The words of an output on one line. -/
def unwrap (out : Str) : Str := Wrap.joined 32 (fields out)

variable {w v sep s indent : Str} {ws : List Str} {n : Nat} {x : Int} {width : Int} {ids : List Nat}

/-! ### Numbers -/

theorem toNat_of_isDigit {c : Char} (h : c.isDigit) :
    48 ≤ c.toNat ∧ c.toNat ≤ 57 ∧ c.toNat.toUInt8.toNat = c.toNat := by
  obtain ⟨hlo, hhi⟩ : 48 ≤ c.toNat ∧ c.toNat ≤ 57 := Char.isDigit_iff_toNat.mp h
  refine ⟨hlo, hhi, ?_⟩
  have hsize : UInt8.size = 256 := rfl
  exact UInt8.toNat_ofNat_of_lt' (by omega)

theorem graphic_byte {c : Char} (h : c.isDigit ∨ c = '-') : Graphic c.toNat.toUInt8 := by
  rcases h with h | rfl
  · obtain ⟨hlo, hhi, hval⟩ := toNat_of_isDigit h
    rw [Graphic, UInt8.lt_iff_toNat_lt, hval]
    refine ⟨Nat.lt_of_le_of_lt hhi (by decide), ?_⟩
    simp only [isSpace, Bool.or_eq_false_iff, Bool.and_eq_false_iff, decide_eq_false_iff_not]
    omega
  · exact ⟨by decide, by decide⟩

theorem isWord_itoa (x : Int) : IsWord (itoa x) := by
  constructor
  · rw [itoa, Ne, List.map_eq_nil_iff, Num.fmtInt]
    split <;> simp [Nat.toDigits_ne_nil]
  · intro b hb
    obtain ⟨c, hc, rfl⟩ := List.mem_map.mp hb
    exact graphic_byte (Num.mem_fmtInt hc)

theorem digit_of_mem_itoa {b : UInt8} (h : b ∈ itoa n) : 48 ≤ b ∧ b ≤ 57 := by
  rw [itoa, Num.fmtInt, if_neg (by omega), Int.natAbs_natCast] at h
  obtain ⟨c, hc, rfl⟩ := List.mem_map.mp h
  obtain ⟨hlo, hhi, hval⟩ :=
    toNat_of_isDigit (Nat.isDigit_of_mem_toDigits (by decide) (by decide) hc)
  rw [UInt8.le_iff_toNat_le, UInt8.le_iff_toNat_le, hval]
  exact ⟨hlo, hhi⟩

theorem digitsFrom_map {cs : List Char} (hcs : ∀ c ∈ cs, c.isDigit) (k : Nat) :
    digitsFrom k (cs.map fun c => c.toNat.toUInt8) = some (Nat.ofDigitChars 10 cs k) := by
  induction cs generalizing k with
  | nil => rfl
  | cons c cs ih =>
    obtain ⟨hc, hcs⟩ := List.forall_mem_cons.mp hcs
    obtain ⟨hlo, hhi, hval⟩ := toNat_of_isDigit hc
    have hle : 48 ≤ c.toNat.toUInt8 ∧ c.toNat.toUInt8 ≤ 57 := by
      rw [UInt8.le_iff_toNat_le, UInt8.le_iff_toNat_le, hval]
      exact ⟨hlo, hhi⟩
    have h0 : '0'.toNat = 48 := rfl
    rw [List.map_cons, digitsFrom, if_pos hle, ih hcs, hval, Nat.ofDigitChars_cons, h0,
      Nat.mul_comm k 10]

theorem atoi_itoa (h : n < 2 ^ 63) : atoi (itoa n) = n := by
  have hdigits : ∀ c ∈ Nat.toDigits 10 n, c.isDigit := fun c hc =>
    Nat.isDigit_of_mem_toDigits (by decide) (by decide) hc
  have hitoa : itoa n = (Nat.toDigits 10 n).map fun c => c.toNat.toUInt8 := by
    rw [itoa, Num.fmtInt, if_neg (by omega), Int.natAbs_natCast]
  have hval := digitsFrom_map hdigits 0
  rw [Nat.ofDigitChars_ten_toDigits] at hval
  obtain ⟨c, cs, hcs⟩ := List.exists_cons_of_ne_nil (Nat.toDigits_ne_nil (b := 10) (n := n))
  rw [hcs] at hdigits hval hitoa
  obtain ⟨hlo, hhi, hc⟩ := toNat_of_isDigit (hdigits c List.mem_cons_self)
  rw [List.map_cons] at hval hitoa
  generalize c.toNat.toUInt8 = b at hval hitoa hc
  -- The first byte is no sign.
  have hsign : ∀ k : UInt8, k.toNat < 48 → b ≠ k := by
    rintro k hk rfl
    omega
  rw [hitoa, atoi, if_neg (List.cons_ne_nil _ _), hval]
  · simp only [Bool.false_eq_true, if_false]
    omega
  · rintro s heq
    exact hsign 43 (by decide) (List.cons.inj heq).1
  · rintro s heq
    exact hsign 45 (by decide) (List.cons.inj heq).1

/-! ### Threads -/

theorem getPolicy_eq {host : Host} {tid : Int} {t : Thread} (h : host.Has tid t) :
    getPolicy host tid = .ok t.starred := by
  obtain ⟨tgid, tgid_lt, policy, resetOnFork⟩ := t
  rw [getPolicy, h.policy]
  cases policy <;> cases resetOnFork <;> rfl

/-- The lines before the one that is looked for are passed over. -/
theorem find_line {pre line rest : Str} {before : List Str}
    (hbefore : ∀ line ∈ before, 10 ∉ line ∧ ¬pre.isPrefixOf line) (hline : 10 ∉ line)
    (hpre : pre.isPrefixOf line) :
    ((before.flatMap (· ++ [10]) ++ (line ++ 10 :: rest)).splitOn 10).find? pre.isPrefixOf =
      some line := by
  induction before with
  | nil =>
    rw [List.flatMap_nil, List.nil_append, splitOn_of_cut_eq_some (cut_append hline),
      List.find?_cons_of_pos hpre]
  | cons first before ih =>
    obtain ⟨hfirst, hbefore⟩ := List.forall_mem_cons.mp hbefore
    rw [List.flatMap_cons, List.append_assoc, List.append_assoc, List.singleton_append,
      splitOn_of_cut_eq_some (cut_append hfirst.1), List.find?_cons_of_neg hfirst.2, ih hbefore]

theorem getTgid_eq {host : Host} {tid : Int} {t : Thread} (h : host.Has tid t) :
    getTgid host tid = .ok (t.tgid : Int) := by
  obtain ⟨before, after, hstatus, hbefore⟩ := h.status
  have hline : 10 ∉ ascii "Tgid:\t" ++ itoa t.tgid := by
    rw [List.mem_append, not_or]
    exact ⟨by decide, fun hmem => absurd (digit_of_mem_itoa hmem) (by decide)⟩
  have hpre : (ascii "Tgid:").isPrefixOf (ascii "Tgid:\t" ++ itoa t.tgid) := rfl
  have hvalue : ((ascii "Tgid:\t" ++ itoa t.tgid).drop 5).dropWhile (fun b => b = 32 ∨ b = 9) =
      itoa t.tgid := by
    obtain ⟨b, s, hb⟩ := List.exists_cons_of_ne_nil (isWord_itoa t.tgid).ne_nil
    have hdigit := digit_of_mem_itoa (n := t.tgid) (b := b) (by rw [hb]; exact List.mem_cons_self)
    have hdrop : (ascii "Tgid:\t" ++ itoa t.tgid).drop 5 = 9 :: itoa t.tgid := rfl
    rw [hdrop, hb, List.dropWhile_cons_of_pos (by decide), List.dropWhile_cons_of_neg]
    rw [decide_eq_true_iff, not_or]
    constructor
    · rintro rfl
      exact absurd hdigit (by decide)
    · rintro rfl
      exact absurd hdigit (by decide)
  have htake : (itoa t.tgid).takeWhile (· ≠ 58) = itoa t.tgid := by
    refine List.takeWhile_eq_self_iff.mpr fun b hb => decide_eq_true fun heq => ?_
    exact absurd (heq ▸ digit_of_mem_itoa hb) (by decide)
  have hlt := t.tgid_lt
  rw [getTgid, hstatus]
  dsimp only
  rw [find_line hbefore hline hpre]
  dsimp only
  rw [hvalue, htake, atoi_itoa (by omega)]

/-! ### Reading the file -/

theorem idFile_cons (n : Nat) (ids : List Nat) :
    idFile (n :: ids) = Wrap.joined 10 ((n :: ids).map fun n : Nat => itoa n) ++ [10] := by
  induction ids generalizing n with
  | nil => simp [idFile]
  | cons m ids ih =>
    have hfirst : idFile (n :: m :: ids) = itoa n ++ 10 :: idFile (m :: ids) := by
      simp [idFile]
    have hjoined : Wrap.joined 10 ((n :: m :: ids).map fun n : Nat => itoa n) =
        itoa n ++ 10 :: Wrap.joined 10 ((m :: ids).map fun n : Nat => itoa n) :=
      Wrap.joined_cons (by simp)
    rw [hfirst, ih, hjoined, List.append_assoc, List.cons_append]

theorem joined_first (hws : ∀ w ∈ ws, IsWord w) (hne : ws ≠ []) :
    ∃ b s, Wrap.joined 10 ws = b :: s ∧ Graphic b := by
  obtain ⟨w, ws, rfl⟩ := List.exists_cons_of_ne_nil hne
  have hw := hws w List.mem_cons_self
  obtain ⟨b, w, rfl⟩ := List.exists_cons_of_ne_nil hw.ne_nil
  have hb := hw.graphic b List.mem_cons_self
  cases ws with
  | nil => exact ⟨b, w, Wrap.joined_singleton _, hb⟩
  | cons v ws => exact ⟨b, _, Wrap.joined_cons (by simp), hb⟩

theorem joined_last (hws : ∀ w ∈ ws, IsWord w) (hne : ws ≠ []) :
    ∃ s b, Wrap.joined 10 ws = s ++ [b] ∧ Graphic b := by
  induction ws with
  | nil => exact absurd rfl hne
  | cons w ws ih =>
    obtain ⟨hw, hws⟩ := List.forall_mem_cons.mp hws
    cases ws with
    | nil =>
      obtain ⟨s, b, rfl⟩ := (List.eq_nil_or_concat' w).resolve_left hw.ne_nil
      exact ⟨s, b, Wrap.joined_singleton _, hw.graphic b (by simp)⟩
    | cons v ws =>
      obtain ⟨s, b, hs, hb⟩ := ih hws (by simp)
      exact ⟨w ++ 10 :: s, b, by rw [Wrap.joined_cons (by simp), hs]; simp, hb⟩

theorem ascii_joined (hws : ∀ w ∈ ws, IsWord w) : ∀ b ∈ Wrap.joined 10 ws, b < 0x80 := by
  induction ws with
  | nil => exact List.forall_mem_nil _
  | cons w ws ih =>
    obtain ⟨hw, hws⟩ := List.forall_mem_cons.mp hws
    have hascii : ∀ b ∈ w, b < 0x80 := fun b hb => (hw.graphic b hb).1
    cases ws with
    | nil => rwa [Wrap.joined_singleton]
    | cons v ws =>
      rw [Wrap.joined_cons (by simp)]
      exact List.forall_mem_append.mpr ⟨hascii, List.forall_mem_cons.mpr ⟨by decide, ih hws⟩⟩

/-- The newline at the end of a text of words is trimmed. -/
theorem trimSpace_joined (hws : ∀ w ∈ ws, IsWord w) (hne : ws ≠ []) :
    trimSpace (Wrap.joined 10 ws ++ [10]) = Wrap.joined 10 ws := by
  obtain ⟨b, s, hfirst, hb⟩ := joined_first hws hne
  obtain ⟨t, d, hlast, hd⟩ := joined_last hws hne
  have hascii : ∀ c ∈ Wrap.joined 10 ws ++ [10], c < 0x80 :=
    List.forall_mem_append.mpr ⟨ascii_joined hws, List.forall_mem_singleton.mpr (by decide)⟩
  let rune (b : UInt8) : Rune := ⟨b.toNat, [b]⟩
  have hhead : ((Wrap.joined 10 ws ++ [10]).map rune).dropWhile (fun r => isSpace r.val) =
      (Wrap.joined 10 ws ++ [10]).map rune := by
    rw [hfirst]
    exact List.dropWhile_cons_of_neg (by simp [rune, hb.2])
  have htail : ((Wrap.joined 10 ws ++ [10]).map rune).rdropWhile (fun r => isSpace r.val) =
      (Wrap.joined 10 ws).map rune := by
    rw [List.map_append, List.map_singleton, List.rdropWhile_concat_pos _ _ _ (by decide), hlast,
      List.map_append, List.map_singleton]
    exact List.rdropWhile_concat_neg _ _ _ (by simp [rune, hd.2])
  have hbytes : ((Wrap.joined 10 ws).map rune).flatMap Rune.bytes = Wrap.joined 10 ws := by
    rw [List.flatMap_map]
    exact List.flatMap_singleton' _
  simp only [trimSpace, runes_ascii hascii]
  change List.flatMap Rune.bytes (List.rdropWhile _ (List.dropWhile _ (List.map rune _))) = _
  rw [hhead, htail, hbytes]

theorem getSortedIntsFrom_idFile {path : Str} {es : List (Str × Entry)} {name : Str}
    (hread : readFile path es name = .ok (idFile ids)) (hids : ∀ n ∈ ids, n < 2 ^ 63) :
    getSortedIntsFrom path es name = .ok ((ids.map fun n : Nat => (n : Int)).mergeSort) := by
  rw [getSortedIntsFrom, hread]
  cases ids with
  | nil => simp [idFile, bind, Except.bind, pure, Except.pure]
  | cons n ids =>
    have hne : idFile (n :: ids) ≠ [] := by simp [idFile_cons]
    have hws : ∀ w ∈ (n :: ids).map fun n : Nat => itoa n, IsWord w :=
      List.forall_mem_map.mpr fun n _ => isWord_itoa n
    have hsplit : (trimSpace (idFile (n :: ids))).splitOn 10 =
        (n :: ids).map fun n : Nat => itoa n := by
      rw [idFile_cons, trimSpace_joined hws (by simp)]
      refine List.splitOn_intercalate 10 (fun w hw hmem => ?_) (by simp)
      exact absurd ((hws w hw).graphic 10 hmem).2 (by decide)
    have hatoi : ((n :: ids).map fun n : Nat => itoa n).map atoi =
        (n :: ids).map fun n : Nat => (n : Int) := by
      rw [List.map_map]
      exact List.map_congr_left fun m hm => atoi_itoa (hids m hm)
    change (if idFile (n :: ids) = [] then Except.ok [] else
      Except.ok (((trimSpace (idFile (n :: ids))).splitOn 10).map atoi).mergeSort) = _
    rw [if_neg hne, hsplit, hatoi]

/-! ### Wrapped lines -/

/-- The words that are put behind a word are fields of their own. -/
theorem fields_foldl_put (hindent : ∀ b ∈ indent, Blank b) (hws : ∀ w ∈ ws, IsWord w) (r : Str)
    (col : Nat) : ∃ s, (ws.foldl (Wrap.put 32 10 width indent) (r, col)).1 = r ++ s ∧
      ∀ w, IsWord w → fields (w ++ (s ++ [10])) = w :: ws := by
  induction ws generalizing r col with
  | nil =>
    refine ⟨[], (List.append_nil r).symm, fun w hw => ?_⟩
    have h := fields_word_append hw (blank_of_all rfl)
      (List.cons_ne_nil (10 : UInt8) []) []
    rwa [List.append_nil] at h
  | cons v ws ih =>
    obtain ⟨hv, hws⟩ := List.forall_mem_cons.mp hws
    have hput : ∃ sep col', Wrap.put 32 10 width indent (r, col) v = (r ++ (sep ++ v), col') ∧
        (∀ b ∈ sep, Blank b) ∧ sep ≠ [] := by
      rw [Wrap.put]
      split
      · refine ⟨10 :: indent, _, by rw [List.cons_append], ?_, List.cons_ne_nil _ _⟩
        exact List.forall_mem_cons.mpr ⟨⟨by decide, by decide⟩, hindent⟩
      · exact ⟨[32], _, by rw [List.singleton_append],
          blank_of_all rfl, List.cons_ne_nil _ _⟩
    obtain ⟨sep, col', hput, hsep, hne⟩ := hput
    obtain ⟨s, hs, hfields⟩ := ih hws (r ++ (sep ++ v)) col'
    refine ⟨sep ++ (v ++ s), ?_, fun w hw => ?_⟩
    · rw [List.foldl_cons, hput, hs]
      simp
    · rw [List.append_assoc, fields_word_append hw hsep hne, List.append_assoc, hfields v hv]

/-- Behind a prefix of two words, the second of which the first word of the text is attached to. -/
theorem fields_wrapText {text p q : Str} (width : Int) (hindent : ∀ b ∈ indent, Blank b)
    (hws : ∀ w ∈ fields text, IsWord w) (hf : fields text = w :: ws) (hp : IsWord p)
    (hq : ∀ b ∈ q, Graphic b) :
    fields (wrapText text (p ++ 32 :: q) width indent ++ [10]) = p :: (q ++ w) :: ws := by
  rw [hf] at hws
  obtain ⟨hw, hws⟩ := List.forall_mem_cons.mp hws
  have hblanks : ∀ b ∈ indent ++ List.replicate (p ++ 32 :: q).length 32, Blank b := by
    refine List.forall_mem_append.mpr ⟨hindent, fun b hb => ?_⟩
    rw [(List.mem_replicate.mp hb).2]
    exact ⟨by decide, by decide⟩
  have hqw : IsWord (q ++ w) :=
    ⟨fun h => hw.ne_nil (List.append_eq_nil_iff.mp h).2,
      List.forall_mem_append.mpr ⟨hq, hw.graphic⟩⟩
  rw [wrapText, hf]
  dsimp only
  obtain ⟨s, hs, hfields⟩ := fields_foldl_put hblanks hws (indent ++ (p ++ 32 :: q) ++ w)
    ((p ++ 32 :: q).length + w.length)
  rw [hs]
  have hout : indent ++ (p ++ 32 :: q) ++ w ++ s ++ [10] =
      indent ++ (p ++ ([32] ++ (q ++ w ++ (s ++ [10])))) := by simp
  rw [hout, fields_blank hindent, fields_word_append hp
    (blank_of_all rfl) (List.cons_ne_nil _ _), hfields _ hqw]

theorem joined_concat_append (us : List Str) (v s : Str) :
    Wrap.joined 32 (us ++ [v]) ++ s = Wrap.joined 32 (us ++ [v ++ s]) := by
  cases us with
  | nil => rw [List.nil_append, List.nil_append, Wrap.joined_singleton, Wrap.joined_singleton]
  | cons u us =>
    rw [Wrap.joined_append (by simp) (by simp), Wrap.joined_append (by simp) (by simp),
      Wrap.joined_singleton, Wrap.joined_singleton, List.append_assoc, List.cons_append]

theorem joined_append_cons (q w : Str) (ws : List Str) :
    Wrap.joined 32 ((q ++ w) :: ws) = q ++ Wrap.joined 32 (w :: ws) := by
  cases ws with
  | nil => rw [Wrap.joined_singleton, Wrap.joined_singleton]
  | cons v ws =>
    have hcons (u : Str) : Wrap.joined 32 (u :: v :: ws) = u ++ 32 :: Wrap.joined 32 (v :: ws) :=
      Wrap.joined_cons (by simp)
    rw [hcons, hcons, List.append_assoc]

/-- On one line, a wrapped list in braces is this list. -/
theorem unwrap_wrapText {p q : Str} (width : Int) (hindent : ∀ b ∈ indent, Blank b)
    (hws : ∀ w ∈ ws, IsWord w) (hne : ws ≠ []) (hp : IsWord p) (hq : ∀ b ∈ q, Graphic b)
    (hs : ∀ b ∈ s, Graphic b) :
    unwrap (wrapText (Wrap.joined 32 ws ++ s) (p ++ 32 :: q) width indent ++ [10]) =
      p ++ 32 :: q ++ (Wrap.joined 32 ws ++ s) := by
  obtain ⟨us, v, rfl⟩ := (List.eq_nil_or_concat' ws).resolve_left hne
  obtain ⟨hus, hv⟩ := List.forall_mem_append.mp hws
  have hv := List.forall_mem_singleton.mp hv
  have hvs : IsWord (v ++ s) := ⟨fun h => hv.ne_nil (List.append_eq_nil_iff.mp h).1,
    List.forall_mem_append.mpr ⟨hv.graphic, hs⟩⟩
  have hall : ∀ w ∈ us ++ [v ++ s], IsWord w :=
    List.forall_mem_append.mpr ⟨hus, List.forall_mem_singleton.mpr hvs⟩
  have hfields : fields (Wrap.joined 32 (us ++ [v ++ s])) = us ++ [v ++ s] :=
    fields_joined ⟨by decide, by decide⟩ hall
  rw [joined_concat_append]
  obtain ⟨w, ws, hcons⟩ := List.exists_cons_of_ne_nil (l := us ++ [v ++ s]) (by simp)
  rw [hcons] at hfields hall ⊢
  have hout := fields_wrapText width hindent (by rwa [hfields]) hfields hp hq
  rw [unwrap, hout, Wrap.joined_cons (by simp), joined_append_cons]
  simp

/-! ### The displayed lists -/

/-- A thread with its mark for realtime threads and the process that it belongs to. -/
def threadWord (t : Int) (isRealtime : Bool) (tgid : Int) : Str :=
  itoa t ++ (if isRealtime then ascii "*" else []) ++
    (if tgid ≠ t then ascii "-[" ++ itoa tgid ++ ascii "]" else [])

theorem isWord_threadWord (t : Int) (isRealtime : Bool) (tgid : Int) :
    IsWord (threadWord t isRealtime tgid) := by
  have hstar : ∀ b ∈ (if isRealtime then ascii "*" else []), Graphic b := by
    cases isRealtime with
    | true => exact graphic_of_all rfl
    | false => exact List.forall_mem_nil _
  have htgid : ∀ b ∈ (if tgid ≠ t then ascii "-[" ++ itoa tgid ++ ascii "]" else []),
      Graphic b := by
    split
    · exact List.forall_mem_append.mpr
        ⟨List.forall_mem_append.mpr ⟨graphic_of_all rfl, (isWord_itoa _).graphic⟩,
          graphic_of_all rfl⟩
    · exact List.forall_mem_nil _
  refine ⟨fun h => ?_, ?_⟩
  · exact (isWord_itoa t).ne_nil (List.append_eq_nil_iff.mp (List.append_eq_nil_iff.mp h).1).1
  · exact List.forall_mem_append.mpr
      ⟨List.forall_mem_append.mpr ⟨(isWord_itoa t).graphic, hstar⟩, htgid⟩

theorem mapM_threadText {host : Host} {thread : Int → Thread} {tids : List Int}
    (h : ∀ t ∈ tids, host.Has t (thread t)) : tids.mapM (threadText host) =
      .ok (tids.map fun t => threadWord t (thread t).starred (thread t).tgid) := by
  induction tids with
  | nil => rfl
  | cons t tids ih =>
    obtain ⟨ht, h⟩ := List.forall_mem_cons.mp h
    have htext : threadText host t = .ok (threadWord t (thread t).starred (thread t).tgid) := by
      rw [threadText, getTgid_eq ht, getPolicy_eq ht]
      rfl
    rw [List.mapM_cons, htext, ih h]
    rfl

/-- The numbers of a file in increasing order. -/
def sorted (ids : List Nat) : List Int := (ids.map fun n : Nat => (n : Int)).mergeSort

theorem mem_sorted {t : Int} (ht : t ∈ sorted ids) : ∃ n ∈ ids, (n : Int) = t :=
  List.mem_map.mp (List.mem_mergeSort.mp ht)

/-- A list in braces behind its prefix, if there is one. -/
def Lists (pre : Str) (ws : List Str) (o : Str) : Prop :=
  if ws = [] then o = [] else unwrap o = pre ++ ascii "\x7b" ++ Wrap.joined 32 ws ++ ascii "\x7d"

theorem lists_nil (pre : Str) : Lists pre [] [] := by
  rw [Lists, if_pos rfl]

theorem lists_wrapText {pre : Str} (p : Str) (hpre : pre = p ++ [32]) (width : Int)
    (hindent : ∀ b ∈ indent, Blank b) (hws : ∀ w ∈ ws, IsWord w) (hne : ws ≠ []) (hp : IsWord p) :
    Lists pre ws (wrapText (Wrap.joined 32 ws ++ ascii "\x7d") (pre ++ ascii "\x7b") width indent ++
      [10]) := by
  have hbrace : ∀ b ∈ ascii "\x7b", Graphic b := graphic_of_all rfl
  have hend : ∀ b ∈ ascii "\x7d", Graphic b := graphic_of_all rfl
  have h := unwrap_wrapText width hindent hws hne hp hbrace hend
  have happend : pre ++ ascii "\x7b" = p ++ 32 :: ascii "\x7b" := by
    rw [hpre, List.append_assoc, List.singleton_append]
  rw [Lists, if_neg hne, happend, h, List.append_assoc _ (Wrap.joined 32 ws)]

theorem displayProcesses_idFile {opts : CmdLineOptions} (hcolor : opts.useColor = false)
    {path : Str} {es : List (Str × Entry)} (width : Int) (hindent : ∀ b ∈ indent, Blank b)
    (hids : ∀ n ∈ ids, n < 2 ^ 63)
    (hread : readFile path es (ascii "cgroup.procs") = .ok (idFile ids)) :
    ∃ o, displayProcesses opts path es width indent = .print o ∧
      Lists (ascii "PIDs: ") ((sorted ids).map itoa) o := by
  have hwords : ∀ w ∈ (sorted ids).map itoa, IsWord w :=
    List.forall_mem_map.mpr fun t _ => isWord_itoa t
  rw [displayProcesses, getSortedIntsFrom_idFile hread hids, ← sorted]
  by_cases h : sorted ids = []
  · rw [h]
    exact ⟨[], rfl, lists_nil _⟩
  · refine ⟨_, ?_, lists_wrapText (ascii "PIDs:") rfl width hindent hwords (by simpa using h)
      ⟨by decide, graphic_of_all rfl⟩⟩
    simp only [bind, Except.bind, pure, Except.pure, if_neg h, hcolor, ofExcept]
    rfl

theorem displayThreads_idFile {opts : CmdLineOptions} (hcolor : opts.useColor = false)
    {host : Host} {path : Str} {es : List (Str × Entry)} (width : Int)
    (hindent : ∀ b ∈ indent, Blank b) (hids : ∀ n ∈ ids, n < 2 ^ 63)
    (hread : readFile path es (ascii "cgroup.threads") = .ok (idFile ids))
    {thread : Int → Thread} (hthreads : ∀ n ∈ ids, host.Has n (thread n)) :
    ∃ o, displayThreads opts host path es width indent = .print o ∧
      Lists (ascii "TIDs: ")
        ((sorted ids).map fun t => threadWord t (thread t).starred (thread t).tgid) o := by
  have hwords : ∀ w ∈ (sorted ids).map fun t => threadWord t (thread t).starred (thread t).tgid,
      IsWord w :=
    List.forall_mem_map.mpr fun t _ => isWord_threadWord ..
  have hmap := mapM_threadText fun t (ht : t ∈ sorted ids) => by
    obtain ⟨n, hn, rfl⟩ := mem_sorted ht
    exact hthreads n hn
  rw [displayThreads, getSortedIntsFrom_idFile hread hids, ← sorted]
  by_cases h : sorted ids = []
  · rw [h]
    exact ⟨[], rfl, lists_nil _⟩
  · refine ⟨_, ?_, lists_wrapText (ascii "TIDs:") rfl width hindent hwords (by simpa using h)
      ⟨by decide, graphic_of_all rfl⟩⟩
    simp only [bind, Except.bind, pure, Except.pure, if_neg h, hcolor, ofExcept, hmap]
    rfl

/-- Without colours, the numbers of the processes and threads of a cgroup that are to be displayed
are displayed in increasing order, each as often as the kernel lists it, the threads with their
stars and processes. -/
theorem members_displayed (opts : CmdLineOptions) (hcolor : opts.useColor = false) (host : Host)
    (path : Str) (es : List (Str × Entry)) (cgroupType : Str) (hindent : ∀ b ∈ indent, Blank b)
    (pids tids : List Nat) (hids : ∀ n ∈ pids ++ tids, n < 2 ^ 63)
    (hprocs : cgroupType ≠ ascii "threaded" → opts.showPids →
      readFile path es (ascii "cgroup.procs") = .ok (idFile pids))
    (htasks : opts.showTids → readFile path es (ascii "cgroup.threads") = .ok (idFile tids))
    (thread : Int → Thread) (hthreads : ∀ n ∈ tids, host.Has n (thread n)) :
    ∃ (ps ts : List Int) (o o' : Str), ps.Perm (pids.map fun n : Nat => (n : Int)) ∧
      ps.Pairwise (· ≤ ·) ∧ ts.Perm (tids.map fun n : Nat => (n : Int)) ∧ ts.Pairwise (· ≤ ·) ∧
      displayMembers opts host path es cgroupType indent = .print (o ++ o') ∧
      Lists (ascii "PIDs: ")
        (if cgroupType ≠ ascii "threaded" ∧ opts.showPids then ps.map itoa else []) o ∧
      Lists (ascii "TIDs: ")
        (if opts.showTids then
          ts.map fun t => threadWord t (thread t).starred (thread t).tgid else []) o' := by
  obtain ⟨hpids, htids⟩ := List.forall_mem_append.mp hids
  have hsorted (ids : List Nat) : (sorted ids).Pairwise (· ≤ ·) := List.pairwise_mergeSort' _ _
  refine ⟨sorted pids, sorted tids, ?_⟩
  have hP : ∃ o, (if cgroupType ≠ ascii "threaded" ∧ opts.showPids then
      displayProcesses opts path es (max ((host.terminalWidth : Int) - indent.length)
        minDisplayWidth) indent else .print []) = .print o ∧
      Lists (ascii "PIDs: ") (if cgroupType ≠ ascii "threaded" ∧ opts.showPids then
        (sorted pids).map itoa else []) o := by
    split
    · next h => exact displayProcesses_idFile hcolor _ hindent hpids (hprocs h.1 h.2)
    · exact ⟨[], rfl, lists_nil _⟩
  have hT : ∃ o, (if opts.showTids then
      displayThreads opts host path es (max ((host.terminalWidth : Int) - indent.length)
        minDisplayWidth) indent else .print []) = .print o ∧
      Lists (ascii "TIDs: ") (if opts.showTids then
        (sorted tids).map fun t => threadWord t (thread t).starred (thread t).tgid else []) o := by
    split
    · next h => exact displayThreads_idFile hcolor _ hindent htids (htasks h) hthreads
    · exact ⟨[], rfl, lists_nil _⟩
  obtain ⟨o, hO, ho⟩ := hP
  obtain ⟨o', hO', ho'⟩ := hT
  refine ⟨o, o', List.mergeSort_perm _ _, hsorted pids, List.mergeSort_perm _ _, hsorted tids, ?_,
    ho, ho'⟩
  simp only [displayMembers, hO, hO']
  rfl

/-- Thread 13 of process 12 is a realtime thread, and 7 is one whose children are not. -/
def exampleThread (t : Int) : Thread :=
  if t = 7 then ⟨7, by decide, .fifo, true⟩
  else ⟨12, by decide, if t = 13 then .fifo else .other, false⟩

/-- Two processes, of which only the second one's second thread gets a star. -/
theorem members_displayed_two :
    let opts : CmdLineOptions := ⟨false, true, true, false⟩
    let host : Host := ⟨80,
      fun t => some (ascii "Name:\tsh\nTgid:\t" ++ itoa (exampleThread t).tgid ++ [10]),
      fun t => some (exampleThread t).getscheduler⟩
    let es := [(ascii "cgroup.procs", Entry.file (some (idFile [12, 7]))),
      (ascii "cgroup.threads", Entry.file (some (idFile [7, 13, 12])))]
    ∃ (ps ts : List Int) (o o' : Str), ps.Perm [12, 7] ∧ ps.Pairwise (· ≤ ·) ∧
      ts.Perm [7, 13, 12] ∧ ts.Pairwise (· ≤ ·) ∧
      displayMembers opts host [] es (ascii "domain") [] = .print (o ++ o') ∧
      Lists (ascii "PIDs: ") (ps.map itoa) o ∧
      Lists (ascii "TIDs: ")
        (ts.map fun t => threadWord t (exampleThread t).starred (exampleThread t).tgid) o' := by
  refine members_displayed ⟨false, true, true, false⟩ rfl _ _ _ (ascii "domain")
    (List.forall_mem_nil _) [12, 7] [7, 13, 12] (by decide) (fun _ _ => rfl) (fun _ => rfl)
    exampleThread fun n _ => ⟨⟨[ascii "Name:\tsh"], [], rfl, by decide⟩, rfl⟩

end Tlpi.ViewV2Cgroups
