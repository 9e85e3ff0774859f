import Tlpi.Lib.Bits
import Tlpi.Lib.Cut
import Tlpi.Lib.Post
import Tlpi.Lib.Strtol

/-!
# The parser of `svsem_op` (`svsem/svsem_op.c`)

`parseOps` converts each operation in place with `strtol`, and finds the next one by a second scan
for a comma. The two numbers of an operation are stored in 16-bit fields, without a check that they
fit.
-/

namespace Tlpi.SvsemOp

open Tlpi.Num

def MAX_SEMOPS : Nat := 1000

def IPC_NOWAIT : BitVec 16 := 0o4000
def SEM_UNDO : BitVec 16 := 0x1000

/-- `struct sembuf`; `sem_op` and `sem_flg` are signed. -/
structure Sembuf where
  semNum : BitVec 16
  semOp : BitVec 16
  semFlg : BitVec 16
  deriving DecidableEq, Repr

inductive ParseError where
  | tooMany
  | trailingComma
  | initialDigit
  | expectedSign
  | digitAfter (sign : Char)
  | expectedZero
  | badTrailing (c : Char)
  deriving DecidableEq, Repr

/-- The message for the argument `arg`. -/
def ParseError.message (arg : CString) : ParseError → String
  | .tooMany => "Too many operations (maximum=1000): \"" ++ String.ofList arg ++ "\"\n"
  | .trailingComma => "Trailing comma or empty argument: \"" ++ String.ofList arg ++ "\""
  | .initialDigit => "Expected initial digit: \"" ++ String.ofList arg ++ "\"\n"
  | .expectedSign => "Expected '+', '-', or '=' in \"" ++ String.ofList arg ++ "\"\n"
  | .digitAfter sign =>
    "Expected digit after '" ++ String.singleton sign ++ "' in \"" ++ String.ofList arg ++ "\"\n"
  | .expectedZero => "Expected \"=0\" in \"" ++ String.ofList arg ++ "\"\n"
  | .badTrailing c =>
    "Bad trailing character (" ++ String.singleton c ++ ") in \"" ++ String.ofList arg ++ "\"\n"

/-- The loop over the flags: their bits, and the string from the first other character on. -/
def parseFlags (semFlg : BitVec 16) : CString → BitVec 16 × CString
  | 'n' :: flags => parseFlags (semFlg ||| IPC_NOWAIT) flags
  | 'u' :: flags => parseFlags (semFlg ||| SEM_UNDO) flags
  | flags => (semFlg, flags)

/-- The value behind the sign, with the flags. -/
def parseValue (semNum : BitVec 16) (sign : Char) (s : CString) : Except ParseError Sembuf :=
  if ¬s.head?.any Char.isDigit then .error (.digitAfter sign)
  else
    let val := strtol 10 s
    let semOp := BitVec.ofInt 16 val.val
    if sign = '=' ∧ semOp ≠ 0 then .error .expectedZero
    else
      let (semFlg, flags) := parseFlags 0 val.endptr
      match flags with
      | [] | ',' :: _ => .ok ⟨semNum, if sign = '-' then -semOp else semOp, semFlg⟩
      | c :: _ => .error (.badTrailing c)

/-- One round of the loop of `parseOps`, up to where it looks for a comma. -/
def parseOp (remaining : CString) : Except ParseError Sembuf :=
  if remaining = [] then .error .trailingComma
  else if ¬remaining.head?.any Char.isDigit then .error .initialDigit
  else
    let num := strtol 10 remaining
    match num.endptr with
    | [] => .error .expectedSign
    | sign :: s =>
      if sign ∉ "+-=".toList then .error .expectedSign
      else parseValue (BitVec.ofInt 16 num.val) sign s

/-- The loop of `parseOps` from the operation `numOps` on: the number of operations in all, and the
operations from there on. -/
def parseFrom (numOps : Nat) (remaining : CString) : Except ParseError (Nat × List Sembuf) :=
  if numOps ≥ MAX_SEMOPS then .error .tooMany
  else
    match _h : cut ',' remaining with
    | none => do
      let sop ← parseOp remaining
      return (numOps + 1, [sop])
    | some (_, rest) => do
      let sop ← parseOp remaining
      let (n, sops) ← parseFrom (numOps + 1) rest
      return (n, sop :: sops)
termination_by remaining.length
decreasing_by exact length_lt_of_cut_eq_some _h

/-- The number of operations that is returned, and the operations. -/
def parseOps (arg : CString) : Except ParseError (Nat × List Sembuf) := parseFrom 0 arg

/-! ### The grammar -/

/-- The fields of an operation. -/
structure Op where
  num : CString
  sign : Char
  value : CString
  flags : CString

namespace Op

def text (o : Op) : CString := o.num ++ o.sign :: (o.value ++ o.flags)

/-- The fields are as in `<num>{+|-|=}<value>[n|u]*`. -/
structure WF (o : Op) : Prop where
  num : o.num ≠ [] ∧ ∀ c ∈ o.num, isDigitIn 10 c
  sign : o.sign ∈ "+-=".toList
  value : o.value ≠ [] ∧ ∀ c ∈ o.value, isDigitIn 10 c
  flags : ∀ c ∈ o.flags, c ∈ "nu".toList

end Op

/-- The bits of the flags that are written. -/
def flagBits (flags : CString) : BitVec 16 :=
  (if 'n' ∈ flags then IPC_NOWAIT else 0) ||| (if 'u' ∈ flags then SEM_UNDO else 0)

/-- The string is an operation that stands for `sop`: the numbers are those that are written, which
the fields of `sop` can represent. -/
def Denotes (s : CString) (sop : Sembuf) : Prop :=
  ∃ o : Op, s = o.text ∧ o.WF ∧ sop.semNum.toNat = digitsVal 10 o.num ∧
    (o.sign = '+' ∧ sop.semOp.toInt = digitsVal 10 o.value ∨
      o.sign = '-' ∧ sop.semOp.toInt = -digitsVal 10 o.value ∨
      o.sign = '=' ∧ o.value = ['0'] ∧ sop.semOp = 0) ∧
    sop.semFlg = flagBits o.flags

/-- The parser accepts the argument exactly when it is a comma-separated list of at most
`MAX_SEMOPS` operations, and then returns what they stand for. -/
def AsDocumented (arg : CString) : Prop :=
  ∀ n sops, parseOps arg = .ok (n, sops) ↔
    ∃ ops : List CString, arg = [','].intercalate ops ∧ (∀ o ∈ ops, ',' ∉ o) ∧ 1 ≤ ops.length ∧
      ops.length ≤ MAX_SEMOPS ∧ n = ops.length ∧ List.Forall₂ Denotes ops sops

/-! ### What the parser accepts -/

namespace Op

/-- The operation as it is stored, whatever the numbers are. -/
def sembuf (o : Op) : Sembuf where
  semNum := BitVec.ofInt 16 (clamp (digitsVal 10 o.num))
  semOp :=
    if o.sign = '-' then -BitVec.ofInt 16 (clamp (digitsVal 10 o.value))
    else BitVec.ofInt 16 (clamp (digitsVal 10 o.value))
  semFlg := flagBits o.flags

/-- An operation that is not rejected: behind `=` only the low 16 bits of the value are checked. -/
def Accepted (o : Op) : Prop :=
  o.WF ∧ (o.sign = '=' → digitsVal 10 o.value ≤ LONG_MAX ∧ digitsVal 10 o.value % 2 ^ 16 = 0)

end Op

theorem ofInt_clamp_eq_zero (m : Nat) :
    BitVec.ofInt 16 (clamp m) = 0 ↔ m ≤ LONG_MAX ∧ m % 2 ^ 16 = 0 := by
  have h0 : (0 : BitVec 16).toNat = 0 := rfl
  rw [← BitVec.toNat_inj, BitVec.toNat_ofInt, h0]
  simp only [clamp, LONG_MAX, LONG_MIN]
  omega

theorem flagBits_cons (c : Char) (flags : CString) :
    flagBits (c :: flags) = flagBits [c] ||| flagBits flags := by
  simp only [flagBits, List.mem_cons, List.not_mem_nil, or_false, ite_or_bits]
  ac_rfl

theorem parseFlags_append {flags r : CString} (semFlg : BitVec 16)
    (hflags : ∀ c ∈ flags, c ∈ "nu".toList) (hr : ∀ c ∈ r.head?, c ∉ "nu".toList) :
    parseFlags semFlg (flags ++ r) = (semFlg ||| flagBits flags, r) := by
  induction flags generalizing semFlg with
  | nil =>
    have hnil : semFlg ||| flagBits [] = semFlg := BitVec.or_zero
    rw [hnil, List.nil_append]
    unfold parseFlags
    split
    · simp at hr
    · simp at hr
    · rfl
  | cons c flags ih =>
    rw [List.forall_mem_cons] at hflags
    have hc : c = 'n' ∨ c = 'u' := by simpa using hflags.1
    rw [flagBits_cons, ← BitVec.or_assoc, ← ih _ hflags.2]
    rcases hc with rfl | rfl
    · rfl
    · rfl

theorem exists_flags (s : CString) :
    ∃ flags r, s = flags ++ r ∧ (∀ c ∈ flags, c ∈ "nu".toList) ∧ ∀ c ∈ r.head?, c ∉ "nu".toList := by
  refine ⟨s.takeWhile (· ∈ "nu".toList), s.dropWhile (· ∈ "nu".toList),
    List.takeWhile_append_dropWhile.symm, fun c hc => ?_, fun c hc => ?_⟩
  · simpa using List.mem_takeWhile_imp hc
  · have hstop := List.head?_dropWhile_not (· ∈ "nu".toList) s
    rw [Option.mem_def.mp hc] at hstop
    simpa using hstop

/-- The end of an operation: of the argument, or a comma. -/
def Ends (r : CString) : Prop := r = [] ∨ r.head? = some ','

theorem parseValue_eq {semNum : BitVec 16} {sign : Char} {value flags r : CString}
    (hvalue : value ≠ [] ∧ ∀ c ∈ value, isDigitIn 10 c) (hflags : ∀ c ∈ flags, c ∈ "nu".toList)
    (hdigit : ∀ c ∈ (flags ++ r).head?, isDigitIn 10 c = false)
    (hr : ∀ c ∈ r.head?, c ∉ "nu".toList) (sop : Sembuf) :
    parseValue semNum sign (value ++ (flags ++ r)) = .ok sop ↔
      (sign = '=' → BitVec.ofInt 16 (clamp (digitsVal 10 value)) = 0) ∧ Ends r ∧
        sop = ⟨semNum, if sign = '-' then -BitVec.ofInt 16 (clamp (digitsVal 10 value))
          else BitVec.ofInt 16 (clamp (digitsVal 10 value)), flagBits flags⟩ := by
  have hhead : (value ++ (flags ++ r)).head?.any Char.isDigit := by
    obtain ⟨c, t, rfl⟩ := List.exists_cons_of_ne_nil hvalue.1
    rw [isDigit_eq]
    exact hvalue.2 c (by simp)
  rw [parseValue, if_neg (not_not.mpr hhead),
    strtol_of_digits (by decide) (by decide) ⟨hvalue.1, hvalue.2, rfl⟩ hdigit]
  have hzero : (0 : BitVec 16) ||| flagBits flags = flagBits flags := BitVec.zero_or
  simp only [parseFlags_append 0 hflags hr, hzero]
  by_cases hz : sign = '=' ∧ BitVec.ofInt 16 (clamp (digitsVal 10 value)) ≠ 0
  · rw [if_pos hz]
    exact ⟨nofun, fun h => absurd (h.1 hz.1) hz.2⟩
  · rw [if_neg hz]
    have hz' : sign = '=' → BitVec.ofInt 16 (clamp (digitsVal 10 value)) = 0 :=
      fun hs => by_contra fun hne => hz ⟨hs, hne⟩
    split
    · rw [Except.ok.injEq]
      exact ⟨fun h => ⟨hz', .inl rfl, h.symm⟩, fun h => h.2.2.symm⟩
    · rw [Except.ok.injEq]
      exact ⟨fun h => ⟨hz', .inr rfl, h.symm⟩, fun h => h.2.2.symm⟩
    · next c t hc =>
      refine ⟨nofun, fun h => ?_⟩
      rcases h.2.1 with h' | h'
      · cases h'
      · cases h'
        exact absurd rfl hc

theorem parseOp_eq {num t : CString} {sign : Char}
    (hnum : num ≠ [] ∧ ∀ c ∈ num, isDigitIn 10 c) (hsign : isDigitIn 10 sign = false) :
    parseOp (num ++ sign :: t) =
      if sign ∉ "+-=".toList then .error .expectedSign
      else parseValue (BitVec.ofInt 16 (clamp (digitsVal 10 num))) sign t := by
  have hhead : (num ++ sign :: t).head?.any Char.isDigit := by
    obtain ⟨c, u, rfl⟩ := List.exists_cons_of_ne_nil hnum.1
    rw [isDigit_eq]
    exact hnum.2 c (by simp)
  rw [parseOp, if_neg (by simp), if_neg (not_not.mpr hhead),
    strtol_of_digits (by decide) (by decide) ⟨hnum.1, hnum.2, rfl⟩ (by simpa using hsign)]

/-- What is behind the value is no digit. -/
theorem head_flags_append {flags r : CString} (hflags : ∀ c ∈ flags, c ∈ "nu".toList)
    (hr : Ends r) : ∀ c ∈ (flags ++ r).head?, isDigitIn 10 c = false := by
  intro c hc
  cases flags with
  | nil =>
    rcases hr with rfl | hr
    · cases hc
    · rw [List.nil_append, hr] at hc
      cases hc
      decide
  | cons d flags =>
    cases hc
    have hd : c = 'n' ∨ c = 'u' := by simpa using hflags c (by simp)
    rcases hd with rfl | rfl <;> decide

theorem Ends.head_notMem {r : CString} (hr : Ends r) : ∀ c ∈ r.head?, c ∉ "nu".toList := by
  intro c hc
  rcases hr with rfl | hr
  · cases hc
  · rw [hr] at hc
    cases hc
    decide

theorem isDigitIn_sign {sign : Char} (h : sign ∈ "+-=".toList) : isDigitIn 10 sign = false := by
  have hs : sign = '+' ∨ sign = '-' ∨ sign = '=' := by simpa using h
  rcases hs with rfl | rfl | rfl <;> decide

/-- The value and the flags are scanned as far as they go. -/
theorem parseValue_ok {semNum : BitVec 16} {sign : Char} {s : CString} {sop : Sembuf}
    (h : parseValue semNum sign s = .ok sop) :
    ∃ value flags r, s = value ++ (flags ++ r) ∧ (value ≠ [] ∧ ∀ c ∈ value, isDigitIn 10 c) ∧
      (∀ c ∈ flags, c ∈ "nu".toList) ∧ Ends r ∧
      (sign = '=' → BitVec.ofInt 16 (clamp (digitsVal 10 value)) = 0) ∧
      sop = ⟨semNum, if sign = '-' then -BitVec.ofInt 16 (clamp (digitsVal 10 value))
        else BitVec.ofInt 16 (clamp (digitsVal 10 value)), flagBits flags⟩ := by
  have hhead : s.head?.any Char.isDigit := by
    by_contra hno
    rw [parseValue, if_pos hno] at h
    cases h
  cases s with
  | nil => cases hhead
  | cons c t =>
    rw [isDigit_eq] at hhead
    obtain ⟨value, u, heq, hvalue, hu⟩ := exists_digits (t := t) hhead
    obtain ⟨flags, r, rfl, hflags, hr⟩ := exists_flags u
    rw [heq, parseValue_eq hvalue hflags hu hr] at h
    exact ⟨value, flags, r, heq, hvalue, hflags, h.2.1, h.1, h.2.2⟩

/-- An operation is accepted up to where it ends. -/
theorem parseOp_iff {s : CString} {sop : Sembuf} :
    parseOp s = .ok sop ↔ ∃ o r, s = Op.text o ++ r ∧ Ends r ∧ o.Accepted ∧ sop = o.sembuf := by
  constructor
  · intro h
    have hne : s ≠ [] := by
      rintro rfl
      cases h
    obtain ⟨c, t, rfl⟩ := List.exists_cons_of_ne_nil hne
    have hhead : (c :: t).head?.any Char.isDigit := by
      by_contra hno
      rw [parseOp, if_neg hne, if_pos hno] at h
      cases h
    rw [isDigit_eq] at hhead
    obtain ⟨num, u, heq, hnum, hu⟩ := exists_digits (t := t) hhead
    rw [heq] at h ⊢
    cases u with
    | nil =>
      have hend : (strtol 10 (num ++ [])).endptr = [] := by
        rw [strtol_of_digits (by decide) (by decide) ⟨hnum.1, hnum.2, rfl⟩ hu]
      simp only [parseOp, hend] at h
      split at h
      · cases h
      split at h
      · cases h
      · cases h
    | cons sign u =>
      rw [parseOp_eq hnum (hu sign rfl)] at h
      split at h
      · cases h
      · next hsign =>
        obtain ⟨value, flags, r, rfl, hvalue, hflags, hr, hz, rfl⟩ := parseValue_ok h
        refine ⟨⟨num, sign, value, flags⟩, r, by simp [Op.text], hr, ⟨⟨hnum, not_not.mp hsign, hvalue, hflags⟩,
          fun hs => (ofInt_clamp_eq_zero _).mp (hz hs)⟩, rfl⟩
  · rintro ⟨o, r, rfl, hr, ⟨hwf, hz⟩, rfl⟩
    have htext : o.text ++ r = o.num ++ o.sign :: (o.value ++ (o.flags ++ r)) := by simp [Op.text]
    rw [htext, parseOp_eq hwf.num (isDigitIn_sign hwf.sign), if_neg (not_not.mpr hwf.sign),
      parseValue_eq hwf.value hwf.flags (head_flags_append hwf.flags hr) hr.head_notMem]
    exact ⟨fun hs => (ofInt_clamp_eq_zero _).mpr (hz hs), hr, rfl⟩

theorem Op.WF.comma_notMem {o : Op} (h : o.WF) : ',' ∉ o.text := by
  have hdigits {ds : CString} (hds : ∀ c ∈ ds, isDigitIn 10 c) : ',' ∉ ds :=
    fun hc => absurd (hds _ hc) (by decide)
  rw [Op.text, List.mem_append, List.mem_cons, List.mem_append]
  rintro (hc | hc | hc | hc)
  · exact hdigits h.num.2 hc
  · exact absurd (hc ▸ h.sign) (by decide)
  · exact hdigits h.value.2 hc
  · exact absurd (h.flags _ hc) (by decide)

/-- The text is that of an operation which is accepted, and stored as `sop`. -/
def Scans (s : CString) (sop : Sembuf) : Prop := ∃ o : Op, s = o.text ∧ o.Accepted ∧ sop = o.sembuf

/-- The operation that is parsed is the text before the comma that the second scan finds. -/
theorem parseOp_of_cut_eq_none {s : CString} {sop : Sembuf} (hcut : cut ',' s = none) :
    parseOp s = .ok sop ↔ Scans s sop := by
  rw [parseOp_iff]
  constructor
  · rintro ⟨o, r, rfl, rfl | hr, hacc, rfl⟩
    · exact ⟨o, List.append_nil _, hacc, rfl⟩
    · refine absurd (List.mem_append_right _ ?_) (cut_eq_none.mp hcut)
      exact List.mem_of_mem_head? hr
  · rintro ⟨o, rfl, hacc, rfl⟩
    exact ⟨o, [], (List.append_nil _).symm, .inl rfl, hacc, rfl⟩

theorem parseOp_of_cut_eq_some {s x y : CString} {sop : Sembuf} (hcut : cut ',' s = some (x, y)) :
    parseOp s = .ok sop ↔ Scans x sop := by
  obtain ⟨rfl, hx⟩ := cut_eq_some.mp hcut
  rw [parseOp_iff]
  constructor
  · rintro ⟨o, r, heq, hr, hacc, rfl⟩
    refine ⟨o, ?_, hacc, rfl⟩
    rcases hr with rfl | hr
    · refine absurd ?_ hacc.1.comma_notMem
      rw [List.append_nil] at heq
      rw [← heq]
      simp
    · obtain ⟨r', rfl⟩ : ∃ r', r = ',' :: r' := by
        cases r with
        | nil => cases hr
        | cons c r' =>
          cases hr
          exact ⟨r', rfl⟩
      have hcut' := cut_append hacc.1.comma_notMem (y := r')
      rw [← heq, cut_append hx] at hcut'
      cases hcut'
      rfl
  · rintro ⟨o, rfl, hacc, rfl⟩
    exact ⟨o, ',' :: y, rfl, .inr rfl, hacc, rfl⟩

theorem parseFrom_iff {n m : Nat} {s : CString} {sops : List Sembuf} :
    parseFrom n s = .ok (m, sops) ↔
      m = n + (s.splitOn ',').length ∧ m ≤ MAX_SEMOPS ∧
        List.Forall₂ Scans (s.splitOn ',') sops := by
  refine fieldsLoop_iff (fun n s r hn => ?_) (fun n s r hn hcut => ?_)
    (fun n s x y r hn hcut => ?_)
  · rw [parseFrom, if_pos hn]
    exact nofun
  · rw [parseFrom, if_neg (not_le.mpr hn)]
    split
    · rw [bind_eq_ok_iff]
      simp only [parseOp_of_cut_eq_none hcut, pure, Except.pure, Except.ok.injEq, eq_comm (a := r)]
    · next h =>
      rw [hcut] at h
      cases h
  · rw [parseFrom, if_neg (not_le.mpr hn)]
    split
    · next h =>
      rw [hcut] at h
      cases h
    · next h =>
      rw [hcut] at h
      cases h
      simp only [bind_eq_ok_iff, parseOp_of_cut_eq_some hcut, pure, Except.pure, Except.ok.injEq,
        eq_comm (a := r)]

/-! ### When the numbers fit -/

/-- The numbers can be represented in the fields, and behind `=` stands `0`. -/
structure Op.Fits (o : Op) : Prop where
  num : digitsVal 10 o.num < 2 ^ 16
  add : o.sign = '+' → digitsVal 10 o.value < 2 ^ 15
  sub : o.sign = '-' → digitsVal 10 o.value ≤ 2 ^ 15
  zero : o.sign = '=' → o.value = ['0']

theorem toNat_eq_iff {x : BitVec 16} {n : Nat} :
    x.toNat = n ↔ n < 2 ^ 16 ∧ x = BitVec.ofInt 16 (clamp n) := by
  have hx := x.isLt
  rw [← BitVec.toNat_inj, BitVec.toNat_ofInt]
  simp only [clamp, LONG_MAX, LONG_MIN]
  omega

theorem toInt_eq_iff {x : BitVec 16} {m : Nat} :
    x.toInt = m ↔ m < 2 ^ 15 ∧ x = BitVec.ofInt 16 (clamp m) := by
  have hx := x.isLt
  rw [← BitVec.toNat_inj, BitVec.toNat_ofInt, BitVec.toInt_eq_toNat_cond]
  simp only [clamp, LONG_MAX, LONG_MIN]
  split <;> omega

theorem toInt_eq_neg_iff {x : BitVec 16} {m : Nat} :
    x.toInt = -m ↔ m ≤ 2 ^ 15 ∧ x = -BitVec.ofInt 16 (clamp m) := by
  have hx := x.isLt
  rw [← BitVec.toNat_inj, BitVec.toNat_neg, BitVec.toNat_ofInt, BitVec.toInt_eq_toNat_cond]
  simp only [clamp, LONG_MAX, LONG_MIN]
  split <;> omega

theorem digitsVal_zero : digitsVal 10 ['0'] = 0 := by decide

/-- The documented meaning is what is stored, provided that the numbers fit. -/
theorem denotes_iff {s : CString} {sop : Sembuf} :
    Denotes s sop ↔ ∃ o : Op, s = o.text ∧ o.WF ∧ o.Fits ∧ sop = o.sembuf := by
  obtain ⟨semNum, semOp, semFlg⟩ := sop
  simp only [Denotes, Op.sembuf, Sembuf.mk.injEq, toNat_eq_iff, toInt_eq_iff, toInt_eq_neg_iff]
  constructor
  · rintro ⟨o, hs, hwf, ⟨hn, hnum⟩, hop, hflg⟩
    refine ⟨o, hs, hwf, ?_, hnum, ?_, hflg⟩
    · rcases hop with ⟨hsign, hm, -⟩ | ⟨hsign, hm, -⟩ | ⟨hsign, hm, -⟩
      · exact ⟨hn, fun _ => hm, by simp [hsign], by simp [hsign]⟩
      · exact ⟨hn, by simp [hsign], fun _ => hm, by simp [hsign]⟩
      · exact ⟨hn, by simp [hsign], by simp [hsign], fun _ => hm⟩
    · rcases hop with ⟨hsign, -, hop⟩ | ⟨hsign, -, hop⟩ | ⟨hsign, hm, hop⟩
      · rw [if_neg (by simp [hsign]), hop]
      · rw [if_pos hsign, hop]
      · rw [if_neg (by simp [hsign]), hop, hm]
        decide
  · rintro ⟨o, hs, hwf, hfits, hnum, hop, hflg⟩
    refine ⟨o, hs, hwf, ⟨hfits.num, hnum⟩, ?_, hflg⟩
    have hsign : o.sign = '+' ∨ o.sign = '-' ∨ o.sign = '=' := by simpa using hwf.sign
    rcases hsign with hsign | hsign | hsign
    · rw [if_neg (by simp [hsign])] at hop
      exact .inl ⟨hsign, hfits.add hsign, hop⟩
    · rw [if_pos hsign] at hop
      exact .inr (.inl ⟨hsign, hfits.sub hsign, hop⟩)
    · rw [if_neg (by simp [hsign]), hfits.zero hsign] at hop
      exact .inr (.inr ⟨hsign, hfits.zero hsign, hop.trans (by decide)⟩)

theorem Op.Fits.accepted {o : Op} (h : o.Fits) (hwf : o.WF) : o.Accepted := by
  refine ⟨hwf, fun hs => ?_⟩
  rw [h.zero hs, digitsVal_zero]
  decide

/-- An operation can be read in one way only. -/
theorem Op.text_inj {o p : Op} (ho : o.WF) (hp : p.WF) (h : o.text = p.text) : o = p := by
  have hdigits {x y ds ds' : CString} (hx : x ≠ [] ∧ ∀ c ∈ x, isDigitIn 10 c)
      (hy : y ≠ [] ∧ ∀ c ∈ y, isDigitIn 10 c) (hds : ∀ c ∈ ds.head?, isDigitIn 10 c = false)
      (hds' : ∀ c ∈ ds'.head?, isDigitIn 10 c = false) (heq : x ++ ds = y ++ ds') :
      x = y ∧ ds = ds' := by
    obtain ⟨htake, hdrop⟩ := Digits.takeWhile ⟨hx.1, hx.2, rfl⟩ hds
    obtain ⟨htake', hdrop'⟩ := Digits.takeWhile ⟨hy.1, hy.2, rfl⟩ hds'
    rw [heq] at htake hdrop
    exact ⟨htake.symm.trans htake', hdrop.symm.trans hdrop'⟩
  have hflags {q : Op} (hq : q.WF) : ∀ c ∈ q.flags.head?, isDigitIn 10 c = false := by
    simpa using head_flags_append hq.flags (.inl rfl)
  obtain ⟨num, sign, value, flags⟩ := o
  obtain ⟨num', sign', value', flags'⟩ := p
  obtain ⟨rfl, hrest⟩ := hdigits ho.num hp.num (by simpa using isDigitIn_sign ho.sign)
    (by simpa using isDigitIn_sign hp.sign) h
  obtain ⟨rfl, hrest⟩ := List.cons.inj hrest
  obtain ⟨rfl, rfl⟩ := hdigits ho.value hp.value (hflags ho) (hflags hp) hrest
  rfl

theorem exists_scans {l : List CString} (h : ∀ s ∈ l, ∃ o : Op, s = o.text ∧ o.Accepted) :
    ∃ sops, List.Forall₂ Scans l sops := by
  induction l with
  | nil => exact ⟨[], .nil⟩
  | cons s l ih =>
    rw [List.forall_mem_cons] at h
    obtain ⟨o, hs, hacc⟩ := h.1
    obtain ⟨sops, hsops⟩ := ih h.2
    exact ⟨o.sembuf :: sops, .cons ⟨o, hs, hacc, rfl⟩ hsops⟩

theorem forall₂_mem {R : CString → Sembuf → Prop} {l : List CString} {sops : List Sembuf}
    {s : CString} (h : List.Forall₂ R l sops) (hs : s ∈ l) : ∃ sop, R s sop := by
  induction h with
  | nil => cases hs
  | cons hab _ ih =>
    rcases List.mem_cons.mp hs with rfl | hs
    · exact ⟨_, hab⟩
    · exact ih hs

/-- If the argument is a list of operations that are not rejected, all its numbers fit. -/
def InRange (arg : CString) : Prop :=
  (arg.splitOn ',').length ≤ MAX_SEMOPS → (∀ s ∈ arg.splitOn ',', ∃ o : Op, s = o.text ∧ o.Accepted) →
    ∀ o : Op, o.WF → o.text ∈ arg.splitOn ',' → o.Fits

theorem asDocumented_iff_split {arg : CString} :
    AsDocumented arg ↔ ∀ n sops, (n = (arg.splitOn ',').length ∧ n ≤ MAX_SEMOPS ∧
      List.Forall₂ Scans (arg.splitOn ',') sops) ↔ ((arg.splitOn ',').length ≤ MAX_SEMOPS ∧
      n = (arg.splitOn ',').length ∧ List.Forall₂ Denotes (arg.splitOn ',') sops) := by
  simp only [AsDocumented, parseOps, parseFrom_iff, Nat.zero_add, exists_fields_iff]

/-- The parser is exact for the arguments whose numbers fit. -/
theorem parseOps_asDocumented_iff (arg : CString) : AsDocumented arg ↔ InRange arg := by
  rw [asDocumented_iff_split]
  constructor
  · intro h hlen hacc o hwf ho
    obtain ⟨sops, hsops⟩ := exists_scans hacc
    obtain ⟨-, -, hden⟩ := (h _ _).mp ⟨rfl, hlen, hsops⟩
    obtain ⟨sop, hsop⟩ := forall₂_mem hden ho
    obtain ⟨p, heq, hp, hfits, -⟩ := denotes_iff.mp hsop
    rwa [Op.text_inj hwf hp heq]
  · intro h n sops
    constructor
    · rintro ⟨rfl, hlen, hsops⟩
      have hfits := h hlen fun s hs => by
        obtain ⟨sop, o, ho, hacc, -⟩ := forall₂_mem hsops hs
        exact ⟨o, ho, hacc⟩
      have hmem : ∀ s ∈ arg.splitOn ',', ∀ o : Op, o.WF → s = o.text → o.Fits :=
        fun s hs o hwf ho => hfits o hwf (ho ▸ hs)
      refine ⟨hlen, rfl, ((List.forall₂_and_left _ _).mpr ⟨hmem, hsops⟩).imp fun s sop hs => ?_⟩
      obtain ⟨hs, o, ho, hacc, rfl⟩ := hs
      exact denotes_iff.mpr ⟨o, ho, hacc.1, hs o hacc.1 ho, rfl⟩
    · rintro ⟨hlen, rfl, hden⟩
      refine ⟨rfl, hlen, hden.imp fun s sop hs => ?_⟩
      obtain ⟨o, ho, hwf, hfits, rfl⟩ := denotes_iff.mp hs
      exact ⟨o, ho, hfits.accepted hwf, rfl⟩

/-- An operation on a semaphore whose number does not fit. -/
def wideOp : Op := ⟨"65536".toList, '+', "1".toList, []⟩

theorem wideOp_accepted : wideOp.Accepted := by
  have hnum : ∀ c ∈ wideOp.num, isDigitIn 10 c := List.all_eq_true.mp (by decide)
  have hvalue : ∀ c ∈ wideOp.value, isDigitIn 10 c := List.all_eq_true.mp (by decide)
  refine ⟨⟨⟨by decide, hnum⟩, by decide, ⟨by decide, hvalue⟩, nofun⟩, fun h => ?_⟩
  exact absurd h (by decide)

/-- It is taken for one on the semaphore 0. -/
theorem parseOps_not_asDocumented :
    parseOps "65536+1".toList = .ok (1, [⟨0, 1, 0⟩]) ∧ ¬AsDocumented "65536+1".toList := by
  have hsplit : "65536+1".toList.splitOn ',' = [wideOp.text] := splitOn_of_cut_eq_none (by decide)
  have hscans : List.Forall₂ Scans ("65536+1".toList.splitOn ',') [⟨0, 1, 0⟩] := by
    rw [hsplit]
    exact .cons ⟨wideOp, rfl, wideOp_accepted, by decide⟩ .nil
  have hlen : 1 = ("65536+1".toList.splitOn ',').length := by rw [hsplit]; rfl
  refine ⟨parseFrom_iff.mpr ⟨by rw [← hlen], by decide, hscans⟩, fun h => ?_⟩
  obtain ⟨-, -, hden⟩ := (asDocumented_iff_split.mp h 1 _).mp ⟨hlen, by decide, hscans⟩
  rw [hsplit] at hden
  obtain ⟨sop, hsop⟩ := forall₂_mem hden (List.mem_singleton_self _)
  obtain ⟨p, heq, hp, hfits, -⟩ := denotes_iff.mp hsop
  rw [← Op.text_inj wideOp_accepted.1 hp heq] at hfits
  exact absurd hfits.num (by decide)

end Tlpi.SvsemOp
