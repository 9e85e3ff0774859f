import Mathlib.Data.List.Basic
import Tlpi.Lib.CInt
import Tlpi.Lib.Strtol

/-!
# Decimal numbers in text

The conversions `%d` and `%u` of `printf`, with the field widths and the padding that it knows, and
`atoi`, which reads such a number back.
-/

namespace Tlpi.Num

/-- `atoi`: `strtol` in base 10, converted to `int`. -/
def atoi (s : CString) : Int := wrap 32 (strtol 10 s).val

/-- `%u` in a field of `w` characters, filled up with `fill`. -/
def fmtNat (w : Nat) (fill : Char) (n : Nat) : CString := (Nat.toDigits 10 n).leftpad w fill

/-- `%d`. -/
def fmtInt (x : Int) : CString :=
  if x < 0 then '-' :: Nat.toDigits 10 x.natAbs else Nat.toDigits 10 x.natAbs

/-- `%d` with zeros up to a width of `w`; a sign stands before the zeros. -/
def fmtZeros (w : Nat) (x : Int) : CString :=
  if x < 0 then '-' :: fmtNat (w - 1) '0' x.natAbs else fmtNat w '0' x.natAbs

example : fmtZeros 3 7 = "007".toList ∧ fmtZeros 3 (-7) = "-07".toList ∧
    fmtZeros 3 1000 = "1000".toList ∧ fmtNat 3 ' ' 12 = " 12".toList := by decide

variable {w n : Nat} {x : Int} {c fill : Char}

theorem digits_toDigits (n : Nat) : Digits 10 (Nat.toDigits 10 n) n := by
  have hdigit {c : Char} (hc : c ∈ Nat.toDigits 10 n) : c.isDigit :=
    Nat.isDigit_of_mem_toDigits (by decide) (by decide) hc
  refine ⟨Nat.toDigits_ne_nil, fun c hc => isDigit_eq ▸ hdigit hc, ?_⟩
  have hval : digitsVal 10 (Nat.toDigits 10 n) = Nat.ofDigitChars 10 (Nat.toDigits 10 n) 0 := by
    rw [digitsVal, Nat.ofDigitChars_eq_foldl]
    refine List.foldl_ext _ _ _ fun v c hc => ?_
    rw [digitVal_of_isDigit (hdigit hc), Option.getD_some]
  rw [hval, Nat.ofDigitChars_ten_toDigits]

/-- A number in text is a numeral for it. -/
theorem numeral_fmtInt (x : Int) : Numeral (Magnitude 10) (fmtInt x) x := by
  have hmag (n : Nat) : Magnitude 10 (Nat.toDigits 10 n) n := by
    rw [Magnitude, if_neg (by decide)]
    exact .inl (digits_toDigits n)
  unfold fmtInt
  split
  · exact ⟨[], ['-'], _, x.natAbs, rfl, List.forall_mem_nil _, hmag _, .inr ⟨rfl, by omega⟩⟩
  · exact ⟨[], [], _, x.natAbs, rfl, List.forall_mem_nil _, hmag _, .inl ⟨.inl rfl, by omega⟩⟩

/-- What `%d` prints is what `atoi` reads. -/
theorem atoi_fmtInt (h : -2 ^ 31 ≤ x ∧ x < 2 ^ 31) : atoi (fmtInt x) = x := by
  have hlong : InLong x := by
    rw [InLong, LONG_MIN, LONG_MAX]
    omega
  rw [atoi, strtol_of_numeral (numeral_fmtInt x), clamp_eq_self hlong]
  exact wrap_eq_self (w := 31) h.1 h.2

/-- The characters of a number. -/
theorem mem_fmtInt (h : c ∈ fmtInt x) : c.isDigit ∨ c = '-' := by
  have hdigit {n : Nat} (hc : c ∈ Nat.toDigits 10 n) : c.isDigit :=
    Nat.isDigit_of_mem_toDigits (by decide) (by decide) hc
  unfold fmtInt at h
  split at h
  · rcases List.mem_cons.mp h with rfl | h
    · exact .inr rfl
    · exact .inl (hdigit h)
  · exact .inl (hdigit h)

theorem mem_fmtNat (h : c ∈ fmtNat w fill n) : c.isDigit ∨ c = fill := by
  rcases List.mem_append.mp h with h | h
  · exact .inr (List.mem_replicate.mp h).2
  · exact .inl (Nat.isDigit_of_mem_toDigits (by decide) (by decide) h)

/-- A field is wide enough for the numbers below a power of ten. -/
theorem length_fmtNat (fill : Char) (hw : 0 < w) (h : n < 10 ^ w) : (fmtNat w fill n).length = w := by
  have hle := (Nat.length_toDigits_le_iff (b := 10) (by decide) hw).mpr h
  rw [fmtNat, List.leftpad, List.length_append, List.length_replicate]
  omega

theorem fmtZeros_natCast (w n : Nat) : fmtZeros w n = fmtNat w '0' n := by
  rw [fmtZeros, if_neg (by omega), Int.natAbs_natCast]

end Tlpi.Num
