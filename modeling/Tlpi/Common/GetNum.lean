import Mathlib.Data.Int.Order.Basic
import Tlpi.Lib.CInt
import Tlpi.Lib.Post
import Tlpi.Lib.Strtol

/-!
# Numeric arguments (`lib/get_num.c`)

`getNum` converts an argument with `strtol` in the base that the flags select and makes the checks
that they ask for. `Denotes` is the language of the arguments that pass.
-/

namespace Tlpi.GetNum

open Tlpi.Num

def GN_NONNEG : BitVec 32 := 0o1
def GN_GT_0 : BitVec 32 := 0o2
def GN_ANY_BASE : BitVec 32 := 0o100
def GN_BASE_8 : BitVec 32 := 0o200
def GN_BASE_16 : BitVec 32 := 0o400

def INT_MIN : Int := -2 ^ 31
def INT_MAX : Int := 2 ^ 31 - 1

/-- A call of `gnFail`, which prints a diagnostic and terminates the program. -/
structure Failure where
  fname : String
  msg : String
  arg : Option CString
  name : Option String
  deriving DecidableEq, Repr

/-- What is printed on the standard error. -/
def Failure.message (f : Failure) : String :=
  f.fname ++ " error" ++ f.name.elim "" (fun name => " (in " ++ name ++ ")") ++ ": " ++ f.msg ++ "\n" ++
    match f.arg with
    | none | some [] => ""
    | some arg => "        offending text: " ++ String.ofList arg ++ "\n"

def gnFail {α : Type} (fname msg : String) (arg : Option CString) (name : Option String) :
    Except Failure α :=
  .error ⟨fname, msg, arg, name⟩

def baseOf (flags : BitVec 32) : Nat :=
  if flags &&& GN_ANY_BASE ≠ 0 then 0
  else if flags &&& GN_BASE_8 ≠ 0 then 8
  else if flags &&& GN_BASE_16 ≠ 0 then 16
  else 10

def getNum (fname : String) (arg : Option CString) (flags : BitVec 32) (name : Option String) :
    Except Failure Int :=
  match arg with
  | none | some [] => gnFail fname "null or empty string" arg name
  | some s =>
    let res := strtol (baseOf flags) s
    if res.erange then gnFail fname "strtol() failed" arg name
    else if res.endptr ≠ [] then gnFail fname "nonnumeric characters" arg name
    else if flags &&& GN_NONNEG ≠ 0 ∧ res.val < 0 then
      gnFail fname "negative value not allowed" arg name
    else if flags &&& GN_GT_0 ≠ 0 ∧ res.val ≤ 0 then gnFail fname "value must be > 0" arg name
    else .ok res.val

def getLong (arg : Option CString) (flags : BitVec 32) (name : Option String) :
    Except Failure Int :=
  getNum "getLong" arg flags name

def getInt (arg : Option CString) (flags : BitVec 32) (name : Option String) :
    Except Failure Int := do
  let res ← getNum "getInt" arg flags name
  if res > INT_MAX ∨ res < INT_MIN then gnFail "getInt" "integer out of range" arg name
  else .ok (wrap32 res)

/-! ### The language -/

/-- The digits of a number in the base that the flags select: by its prefix, or octal, hexadecimal
(where a prefix may confirm the base) or decimal. -/
def SelectedDigits (flags : BitVec 32) (t : CString) (n : Nat) : Prop :=
  if flags &&& GN_ANY_BASE ≠ 0 then
    HexDigits t n ∨ t.head? = some '0' ∧ Digits 8 t n ∨ t.head? ≠ some '0' ∧ Digits 10 t n
  else if flags &&& GN_BASE_8 ≠ 0 then Digits 8 t n
  else if flags &&& GN_BASE_16 ≠ 0 then Digits 16 t n ∨ HexDigits t n
  else Digits 10 t n

/-- The string is the numeral of a number that passes the checks. -/
def Denotes (flags : BitVec 32) (s : CString) (v : Int) : Prop :=
  Numeral (SelectedDigits flags) s v ∧ (flags &&& GN_NONNEG ≠ 0 → 0 ≤ v) ∧
    (flags &&& GN_GT_0 ≠ 0 → 0 < v)

theorem selectedDigits_eq (flags : BitVec 32) :
    SelectedDigits flags = Magnitude (baseOf flags) := by
  funext t n
  unfold SelectedDigits baseOf
  split
  · simp [Magnitude]
  split
  · simp [Magnitude]
  split
  · simp [Magnitude]
  · simp [Magnitude]

variable {fname : String} {s : CString} {flags : BitVec 32} {name : Option String} {v : Int}

theorem Denotes.ne_nil (h : Denotes flags s v) : s ≠ [] := by
  rintro rfl
  obtain ⟨ws, sign, t, n, heq, -, ht, -⟩ := h.1
  obtain ⟨-, rfl⟩ := List.append_eq_nil_iff.mp heq.symm
  rw [selectedDigits_eq] at ht
  obtain ⟨c, hc, -⟩ := ht.head
  cases hc

/-- The checks on a number. -/
theorem getNum_of_numeral (hs : s ≠ []) (h : Numeral (SelectedDigits flags) s v) :
    getNum fname (some s) flags name =
      if ¬InLong v then gnFail fname "strtol() failed" (some s) name
      else if flags &&& GN_NONNEG ≠ 0 ∧ v < 0 then
        gnFail fname "negative value not allowed" (some s) name
      else if flags &&& GN_GT_0 ≠ 0 ∧ v ≤ 0 then gnFail fname "value must be > 0" (some s) name
      else .ok v := by
  obtain ⟨c, t, rfl⟩ := List.exists_cons_of_ne_nil hs
  rw [selectedDigits_eq] at h
  simp only [getNum, strtol_of_numeral h]
  by_cases hv : InLong v
  · simp [hv, clamp_eq_self hv]
  · simp [hv]

/-- What passes is exactly the language, and is converted to the number. -/
theorem getNum_iff :
    getNum fname (some s) flags name = .ok v ↔ Denotes flags s v ∧ InLong v := by
  constructor
  · intro h
    have hs : s ≠ [] := by
      rintro rfl
      cases h
    have hend : (strtol (baseOf flags) s).endptr = [] := by
      obtain ⟨c, t, rfl⟩ := List.exists_cons_of_ne_nil hs
      by_contra hne
      simp [getNum, gnFail, hne] at h
      split at h <;> cases h
    obtain ⟨w, hw⟩ := numeral_of_endptr hs hend
    rw [← selectedDigits_eq] at hw
    rw [getNum_of_numeral hs hw] at h
    split at h
    · cases h
    split at h
    · cases h
    split at h
    · cases h
    · next hlong hneg hpos =>
      cases h
      exact ⟨⟨hw, fun hf => not_lt.mp fun hv => hneg ⟨hf, hv⟩,
        fun hf => not_le.mp fun hv => hpos ⟨hf, hv⟩⟩, not_not.mp hlong⟩
  · rintro ⟨h, hlong⟩
    rw [getNum_of_numeral h.ne_nil h.1, if_neg (not_not.mpr hlong),
      if_neg fun hv => absurd (h.2.1 hv.1) (not_le.mpr hv.2),
      if_neg fun hv => absurd (h.2.2 hv.1) (not_lt.mpr hv.2)]

def InInt (v : Int) : Prop := INT_MIN ≤ v ∧ v ≤ INT_MAX

theorem InInt.inLong (h : InInt v) : InLong v := by
  obtain ⟨hmin, hmax⟩ := h
  simp only [INT_MIN, INT_MAX] at hmin hmax
  constructor
  · simp only [LONG_MIN]
    omega
  · simp only [LONG_MAX]
    omega

theorem InInt.wrap32 (h : InInt v) : wrap32 v = v := by
  obtain ⟨hmin, hmax⟩ := h
  exact wrap_eq_self hmin (Int.lt_of_le_sub_one hmax)

theorem getInt_iff : getInt (some s) flags name = .ok v ↔ Denotes flags s v ∧ InInt v := by
  rw [getInt, bind_eq_ok_iff]
  constructor
  · rintro ⟨w, hw, h⟩
    obtain ⟨hden, hlong⟩ := getNum_iff.mp hw
    split at h
    · cases h
    · next hrange =>
      have hint : InInt w := ⟨not_lt.mp fun h => hrange (.inr h), not_lt.mp fun h => hrange (.inl h)⟩
      rw [hint.wrap32] at h
      cases h
      exact ⟨hden, hint⟩
  · rintro ⟨hden, hint⟩
    refine ⟨v, getNum_iff.mpr ⟨hden, hint.inLong⟩, ?_⟩
    rw [if_neg, hint.wrap32]
    rintro (h | h)
    · exact not_lt.mpr hint.2 h
    · exact not_lt.mpr hint.1 h

/-- Both functions return exactly on the numerals of their range, with the number; on every other
string the program terminates. -/
theorem getLong_getInt_iff (s : CString) (flags : BitVec 32) (name : Option String) (v : Int) :
    (getLong (some s) flags name = .ok v ↔ Denotes flags s v ∧ InLong v) ∧
      (getInt (some s) flags name = .ok v ↔ Denotes flags s v ∧ InInt v) :=
  ⟨getNum_iff, getInt_iff⟩

/-- With `GN_BASE_16` a prefix is accepted, which is no string of hexadecimal digits. -/
theorem getLong_hex_prefix :
    getLong (some "0x1f".toList) GN_BASE_16 none = .ok 31 ∧
      ¬∃ v, Numeral (Digits 16) "0x1f".toList v := by
  refine ⟨by decide, ?_⟩
  rintro ⟨v, ws, sign, t, n, heq, hws, ht, hsign⟩
  have hx : 'x' ∈ ws ++ sign ++ t := heq ▸ by decide
  rw [List.append_assoc, List.mem_append, List.mem_append] at hx
  rcases hx with hx | hx | hx
  · exact absurd (hws _ hx) (by decide)
  · rcases hsign with ⟨rfl | rfl, -⟩ | ⟨rfl, -⟩
    · cases hx
    · exact absurd hx (by decide)
    · exact absurd hx (by decide)
  · exact absurd (ht.2.1 _ hx) (by decide)

end Tlpi.GetNum
