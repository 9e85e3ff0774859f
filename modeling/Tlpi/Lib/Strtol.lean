import Mathlib.Algebra.Group.Int.Defs
import Mathlib.Algebra.Group.Nat.Defs
import Mathlib.Data.Char
import Mathlib.Data.List.TakeWhile
import Mathlib.Data.Int.Notation

/-!
# `strtol`

The conversion of the longest initial numeral of a string, as the C standard has it: white space, a
sign, the prefix that selects or confirms the base, the digits. `Numeral` says of a whole string
that it is such a numeral, without the scan.
-/

namespace Tlpi.Num

abbrev CString := List Char

def LONG_MIN : Int := -2 ^ 63
def LONG_MAX : Int := 2 ^ 63 - 1

def isspace (c : Char) : Bool := c = ' ' || ('\t' ≤ c && c ≤ '\r')

/-- The value of a digit; letters of either case go on from ten. -/
def digitVal (c : Char) : Option Nat :=
  if '0' ≤ c ∧ c ≤ '9' then some (c.toNat - '0'.toNat)
  else if 'a' ≤ c ∧ c ≤ 'z' then some (c.toNat - 'a'.toNat + 10)
  else if 'A' ≤ c ∧ c ≤ 'Z' then some (c.toNat - 'A'.toNat + 10)
  else none

def isDigitIn (base : Nat) (c : Char) : Bool := (digitVal c).any (· < base)

def digitsVal (base : Nat) (ds : CString) : Nat :=
  ds.foldl (fun v d => base * v + (digitVal d).getD 0) 0

/-- The sign, and what stands behind it. -/
def signOf : CString → Int × CString
  | '-' :: t => (-1, t)
  | '+' :: t => (1, t)
  | t => (1, t)

/-- A prefix `0x` that has a hexadecimal digit behind it. -/
def hexPrefix : CString → Bool
  | '0' :: x :: d :: _ => (x = 'x' || x = 'X') && isDigitIn 16 d
  | _ => false

/-- The base of the digits, and the string from the first of them on. -/
def radix (base : Nat) (t : CString) : Nat × CString :=
  if (base = 0 ∨ base = 16) ∧ hexPrefix t then (16, t.drop 2)
  else if base = 0 then (if t.head? = some '0' then 8 else 10, t)
  else (base, t)

/-- What a call leaves: the value, the string from `endptr` on, and whether `errno` is `ERANGE`. -/
structure Conversion where
  val : Int
  endptr : CString
  erange : Bool
  deriving DecidableEq, Repr

def InLong (v : Int) : Prop := LONG_MIN ≤ v ∧ v ≤ LONG_MAX

instance (v : Int) : Decidable (InLong v) := inferInstanceAs (Decidable (_ ∧ _))

/-- A value out of range becomes the limit on its side. -/
def clamp (v : Int) : Int := max LONG_MIN (min LONG_MAX v)

def strtol (base : Nat) (s : CString) : Conversion :=
  let (sign, t) := signOf (s.dropWhile isspace)
  let (b, u) := radix base t
  let digits := u.takeWhile (isDigitIn b)
  if digits = [] then ⟨0, s, false⟩
  else
    let v := sign * digitsVal b digits
    ⟨clamp v, u.dropWhile (isDigitIn b), !decide (InLong v)⟩

/-! ### Numerals -/

/-- A nonempty digit string and its value. -/
def Digits (base : Nat) (ds : CString) (n : Nat) : Prop :=
  ds ≠ [] ∧ (∀ c ∈ ds, isDigitIn base c) ∧ n = digitsVal base ds

/-- The digits of a hexadecimal number behind its prefix. -/
def HexDigits (t : CString) (n : Nat) : Prop :=
  ∃ x ds, t = '0' :: x :: ds ∧ (x = 'x' ∨ x = 'X') ∧ Digits 16 ds n

/-- The digits in the base that is given, where 0 leaves the base to the prefix and a base of 16
permits it. -/
def Magnitude (base : Nat) (t : CString) (n : Nat) : Prop :=
  if base = 0 then
    HexDigits t n ∨ t.head? = some '0' ∧ Digits 8 t n ∨ t.head? ≠ some '0' ∧ Digits 10 t n
  else Digits base t n ∨ base = 16 ∧ HexDigits t n

/-- Optional white space, an optional sign and digits, with the value of the number. -/
def Numeral (digits : CString → Nat → Prop) (s : CString) (v : Int) : Prop :=
  ∃ ws sign t n, s = ws ++ sign ++ t ∧ (∀ c ∈ ws, isspace c) ∧ digits t n ∧
    ((sign = [] ∨ sign = ['+']) ∧ v = n ∨ sign = ['-'] ∧ v = -n)

variable {base b n : Nat} {s t u ds r : CString} {v : Int} {c : Char}

theorem clamp_eq_self (h : InLong v) : clamp v = v := by
  obtain ⟨hmin, hmax⟩ := h
  rw [clamp]
  omega

theorem digitVal_of_isspace (h : isspace c) : digitVal c = none := by
  simp only [isspace, Bool.or_eq_true, Bool.and_eq_true, decide_eq_true_eq] at h
  rcases h with rfl | ⟨-, h⟩
  · decide
  · have hlt : c < '0' := lt_of_le_of_lt h (by decide : '\r' < '0')
    have hno {d : Char} (hd : '0' ≤ d) : ¬d ≤ c := not_le.mpr (lt_of_lt_of_le hlt hd)
    rw [digitVal, if_neg fun h => hno (by decide) h.1, if_neg fun h => hno (by decide) h.1,
      if_neg fun h => hno (by decide) h.1]

/-- A digit is neither white space nor a sign. -/
theorem isDigitIn_head (h : isDigitIn base c) : isspace c = false ∧ c ≠ '-' ∧ c ≠ '+' := by
  have hsome : digitVal c ≠ none := by
    intro hn
    rw [isDigitIn, hn] at h
    cases h
  refine ⟨?_, ?_, ?_⟩
  · by_contra hs
    exact hsome (digitVal_of_isspace (by simpa using hs))
  · rintro rfl
    exact hsome (by decide)
  · rintro rfl
    exact hsome (by decide)

theorem digitVal_of_isDigit (h : c.isDigit) :
    digitVal c = some (c.toNat - '0'.toNat) := by
  simp only [Char.isDigit, Bool.and_eq_true, decide_eq_true_eq] at h
  exact if_pos h

theorem isDigit_eq : Char.isDigit = isDigitIn 10 := by
  funext c
  rw [Bool.eq_iff_iff]
  constructor
  · intro h
    rw [isDigitIn, digitVal_of_isDigit h, Option.any_some, decide_eq_true_eq]
    rw [Char.isDigit_iff_toNat] at h
    have h0 : '0'.toNat = 48 := rfl
    have h9 : '9'.toNat = 57 := rfl
    omega
  · intro h
    by_contra hn
    have hval : ¬('0' ≤ c ∧ c ≤ '9') := by
      simpa [Char.isDigit, Char.le_def] using hn
    rw [isDigitIn, digitVal, if_neg hval] at h
    split at h
    · simp only [Option.any_some, decide_eq_true_eq] at h
      omega
    split at h
    · simp only [Option.any_some, decide_eq_true_eq] at h
      omega
    · cases h

theorem hexPrefix_iff :
    hexPrefix t ↔ ∃ x d r, t = '0' :: x :: d :: r ∧ (x = 'x' ∨ x = 'X') ∧ isDigitIn 16 d := by
  constructor
  · intro h
    unfold hexPrefix at h
    split at h
    · next x d r =>
      simp only [Bool.and_eq_true, Bool.or_eq_true, decide_eq_true_eq] at h
      exact ⟨x, d, r, rfl, h.1, h.2⟩
    · cases h
  · rintro ⟨x, d, r, rfl, hx, hd⟩
    simp [hexPrefix, hx, hd]

/-- No digit string up to base 16 has a prefix. -/
theorem hexPrefix_of_digits (hb : base ≤ 16) (h : ∀ c ∈ t, isDigitIn base c) :
    hexPrefix t = false := by
  by_contra ht
  obtain ⟨x, d, r, rfl, hx, -⟩ := hexPrefix_iff.mp (by simpa using ht)
  have hdig := h x (by simp)
  have hbig : digitVal x = some 33 := by rcases hx with rfl | rfl <;> decide
  rw [isDigitIn, hbig, Option.any_some, decide_eq_true_eq] at hdig
  omega

theorem HexDigits.radix (h : HexDigits t n) (hb : base = 0 ∨ base = 16) :
    Digits (radix base t).1 (radix base t).2 n := by
  obtain ⟨x, ds, rfl, hx, hds⟩ := h
  obtain ⟨d, r, rfl⟩ := List.exists_cons_of_ne_nil hds.1
  have hp : hexPrefix ('0' :: x :: d :: r) := hexPrefix_iff.mpr ⟨x, d, r, rfl, hx, hds.2.1 d (by simp)⟩
  rw [Num.radix, if_pos ⟨hb, hp⟩]
  exact hds

theorem HexDigits.of_prefix (hp : hexPrefix t) (h : Digits 16 (t.drop 2) n) : HexDigits t n := by
  obtain ⟨x, d, r, rfl, hx, -⟩ := hexPrefix_iff.mp hp
  exact ⟨x, d :: r, rfl, hx, h⟩

/-- The base and the digits that are scanned are those of the magnitude. -/
theorem magnitude_iff : Magnitude base t n ↔ Digits (radix base t).1 (radix base t).2 n := by
  constructor
  · intro h
    unfold Magnitude at h
    split at h
    · next hb =>
      rcases h with h | ⟨h0, h⟩ | ⟨h0, h⟩
      · exact h.radix (.inl hb)
      · rw [radix, if_neg fun hp => by simp [hexPrefix_of_digits (by decide) h.2.1] at hp, if_pos hb,
          if_pos h0]
        exact h
      · rw [radix, if_neg fun hp => by simp [hexPrefix_of_digits (by decide) h.2.1] at hp, if_pos hb,
          if_neg h0]
        exact h
    · next hb =>
      rcases h with h | ⟨h16, h⟩
      · rw [radix, if_neg, if_neg hb]
        · exact h
        · rintro ⟨hb', hp⟩
          rw [hexPrefix_of_digits (hb'.resolve_left hb).le h.2.1] at hp
          cases hp
      · exact h.radix (.inr h16)
  · intro h
    unfold radix at h
    split at h
    · next hp =>
      have hhex := HexDigits.of_prefix hp.2 h
      unfold Magnitude
      split
      · exact .inl hhex
      · next hb => exact .inr ⟨hp.1.resolve_left hb, hhex⟩
    · split at h
      · next hb =>
        rw [Magnitude, if_pos hb]
        by_cases h0 : t.head? = some '0'
        · rw [if_pos h0] at h
          exact .inr (.inl ⟨h0, h⟩)
        · rw [if_neg h0] at h
          exact .inr (.inr ⟨h0, h⟩)
      · next hb =>
        rw [Magnitude, if_neg hb]
        exact .inl h

/-! ### The scan -/

/-- The digits end where the scan ends. -/
theorem Digits.takeWhile (h : Digits b ds n) (hr : ∀ c ∈ r.head?, isDigitIn b c = false) :
    (ds ++ r).takeWhile (isDigitIn b) = ds ∧ (ds ++ r).dropWhile (isDigitIn b) = r := by
  have hstop : r.takeWhile (isDigitIn b) = [] ∧ r.dropWhile (isDigitIn b) = r := by
    cases r with
    | nil => exact ⟨rfl, rfl⟩
    | cons c r =>
      have hc := hr c rfl
      simp [hc]
  rw [List.takeWhile_append_of_pos h.2.1, List.dropWhile_append_of_pos h.2.1, hstop.1, hstop.2,
    List.append_nil]
  exact ⟨rfl, rfl⟩

/-- A string that begins with a digit begins with all the digits up to where they end. -/
theorem exists_digits (h : isDigitIn b c) :
    ∃ ds r, c :: t = ds ++ r ∧ (ds ≠ [] ∧ ∀ d ∈ ds, isDigitIn b d) ∧
      ∀ d ∈ r.head?, isDigitIn b d = false := by
  refine ⟨_, _, List.takeWhile_append_dropWhile.symm, ⟨?_, fun d => List.mem_takeWhile_imp⟩,
    fun d hd => ?_⟩
  · simp [h]
  · have hstop := List.head?_dropWhile_not (isDigitIn b) (c :: t)
    rwa [Option.mem_def.mp hd] at hstop

theorem strtol_scan {x : CString} {sign : Int} (hs : s.dropWhile isspace = x)
    (hx : signOf x = (sign, t)) (ht : radix base t = (b, ds ++ r)) (hds : Digits b ds n)
    (hr : ∀ c ∈ r.head?, isDigitIn b c = false) :
    strtol base s = ⟨clamp (sign * n), r, !decide (InLong (sign * n))⟩ := by
  obtain ⟨htake, hdrop⟩ := hds.takeWhile hr
  simp only [strtol, hs, hx, ht, htake, hdrop, if_neg hds.1, ← hds.2.2]

theorem dropWhile_isspace {ws x : CString} (hws : ∀ c ∈ ws, isspace c)
    (hx : ∀ c ∈ x.head?, isspace c = false) : (ws ++ x).dropWhile isspace = x := by
  rw [List.dropWhile_append_of_pos hws]
  cases x with
  | nil => rfl
  | cons c x => simp [hx c rfl]

theorem signOf_of_ne (hm : t.head? ≠ some '-') (hp : t.head? ≠ some '+') : signOf t = (1, t) := by
  unfold signOf
  split
  · simp at hm
  · simp at hp
  · rfl

/-- A sign is taken off, if there is one. -/
theorem signOf_eq (x : CString) :
    ∃ sign, x = sign ++ (signOf x).2 ∧
      ((sign = [] ∨ sign = ['+']) ∧ (signOf x).1 = 1 ∨ sign = ['-'] ∧ (signOf x).1 = -1) := by
  unfold signOf
  split
  · exact ⟨['-'], rfl, .inr ⟨rfl, rfl⟩⟩
  · exact ⟨['+'], rfl, .inl ⟨.inr rfl, rfl⟩⟩
  · exact ⟨[], rfl, .inl ⟨.inl rfl, rfl⟩⟩

/-- The first character of a magnitude is a digit. -/
theorem Magnitude.head (h : Magnitude base t n) :
    ∃ c, t.head? = some c ∧ isspace c = false ∧ c ≠ '-' ∧ c ≠ '+' := by
  have hdig := magnitude_iff.mp h
  unfold radix at hdig
  split at hdig
  · next hp =>
    obtain ⟨x, d, r, rfl, -⟩ := hexPrefix_iff.mp hp.2
    exact ⟨'0', rfl, by decide⟩
  · have hhead {b : Nat} (hd : Digits b t n) :
        ∃ c, t.head? = some c ∧ isspace c = false ∧ c ≠ '-' ∧ c ≠ '+' := by
      obtain ⟨c, r, rfl⟩ := List.exists_cons_of_ne_nil hd.1
      exact ⟨c, rfl, isDigitIn_head (hd.2.1 c (by simp))⟩
    split at hdig
    · exact hhead hdig
    · exact hhead hdig

/-- The parts of a numeral are what the scan takes for them. -/
theorem Numeral.scan (h : Numeral (Magnitude base) s v) :
    ∃ n, Magnitude base (signOf (s.dropWhile isspace)).2 n ∧
      v = (signOf (s.dropWhile isspace)).1 * n := by
  obtain ⟨ws, sign, t, n, rfl, hws, hmag, hsign⟩ := h
  obtain ⟨c, hc, hsp, hm, hp⟩ := hmag.head
  refine ⟨n, ?_⟩
  rw [List.append_assoc]
  rcases hsign with ⟨rfl | rfl, rfl⟩ | ⟨rfl, rfl⟩
  · rw [List.nil_append, dropWhile_isspace hws (by simp [hc, hsp]),
      signOf_of_ne (by simp [hc, hm]) (by simp [hc, hp])]
    exact ⟨hmag, (Int.one_mul _).symm⟩
  · rw [List.singleton_append, dropWhile_isspace hws (by simp [isspace])]
    exact ⟨hmag, (Int.one_mul _).symm⟩
  · rw [List.singleton_append, dropWhile_isspace hws (by simp [isspace])]
    exact ⟨hmag, (Int.neg_one_mul _).symm⟩

theorem Numeral.unique {w : Int} (h : Numeral (Magnitude base) s v)
    (h' : Numeral (Magnitude base) s w) : v = w := by
  obtain ⟨n, hn, rfl⟩ := h.scan
  obtain ⟨m, hm, rfl⟩ := h'.scan
  rw [(magnitude_iff.mp hn).2.2, (magnitude_iff.mp hm).2.2]

/-- A numeral is converted to its value, and nothing is left of it. -/
theorem strtol_of_numeral (h : Numeral (Magnitude base) s v) :
    strtol base s = ⟨clamp v, [], !decide (InLong v)⟩ := by
  obtain ⟨n, hmag, rfl⟩ := h.scan
  exact strtol_scan (t := (signOf (s.dropWhile isspace)).2) rfl rfl (by rw [List.append_nil])
    (magnitude_iff.mp hmag) (by simp)

/-- Conversely, a string of which nothing is left is a numeral. -/
theorem numeral_of_endptr (hs : s ≠ []) (h : (strtol base s).endptr = []) :
    ∃ v, Numeral (Magnitude base) s v := by
  obtain ⟨sign, hx, hsign⟩ := signOf_eq (s.dropWhile isspace)
  have hcat : s = s.takeWhile isspace ++ sign ++ (signOf (s.dropWhile isspace)).2 := by
    rw [List.append_assoc, ← hx, List.takeWhile_append_dropWhile]
  simp only [strtol] at h
  split at h
  · exact absurd h hs
  · next hne =>
    have hall := List.dropWhile_eq_nil_iff.mp h
    rw [List.takeWhile_eq_self_iff.mpr hall] at hne
    have hmag := magnitude_iff.mpr ⟨hne, hall, rfl⟩
    have hws : ∀ c ∈ s.takeWhile isspace, isspace c := fun c => List.mem_takeWhile_imp
    rcases hsign with ⟨hp, -⟩ | ⟨hm, -⟩
    · exact ⟨_, _, sign, _, _, hcat, hws, hmag, .inl ⟨hp, rfl⟩⟩
    · exact ⟨_, _, sign, _, _, hcat, hws, hmag, .inr ⟨hm, rfl⟩⟩

/-- Digits in a base without a prefix are converted up to where they end. -/
theorem strtol_of_digits (h0 : base ≠ 0) (h16 : base ≠ 16) (h : Digits base ds n)
    (hr : ∀ c ∈ r.head?, isDigitIn base c = false) :
    strtol base (ds ++ r) = ⟨clamp n, r, !decide (InLong n)⟩ := by
  obtain ⟨c, u, rfl⟩ := List.exists_cons_of_ne_nil h.1
  obtain ⟨hsp, hm, hp⟩ := isDigitIn_head (h.2.1 c (by simp))
  have hrad : radix base (c :: u ++ r) = (base, c :: u ++ r) := by
    rw [radix, if_neg fun hb => hb.1.elim h0 h16, if_neg h0]
  have hdrop : (c :: u ++ r).dropWhile isspace = c :: u ++ r := by simp [hsp]
  rw [strtol_scan hdrop (signOf_of_ne (by simp [hm]) (by simp [hp])) hrad h hr]
  simp

end Tlpi.Num
