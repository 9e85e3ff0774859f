import Mathlib.Data.Int.Basic
import Mathlib.Tactic.NormNum

/-!
# Fixed-width C integers

A C integer of width `w` is an `Int`; `wrap w` brings a result back into the signed range
`[-2^(w-1), 2^(w-1))`, as two's complement arithmetic does. A counter built by repeated
wrapping additions is the wrapped total, so it is exact as long as the total is in range.
-/

namespace Tlpi

/-- Two's complement reduction to `w` bits. -/
def wrap (w : Nat) (x : Int) : Int := Int.bmod x (2 ^ w)

/-- The C type `int`. -/
abbrev wrap32 (x : Int) : Int := wrap 32 x

theorem wrap_add_wrap (w : Nat) (x y : Int) : wrap w (wrap w x + y) = wrap w (x + y) := by
  simp [wrap]

/-- A value in the signed range is its own reduction. -/
theorem wrap_eq_self {w : Nat} {x : Int} (h0 : -2 ^ w ≤ x) (h1 : x < 2 ^ w) :
    wrap (w + 1) x = x := by
  refine Int.bmod_eq_of_le ?_ ?_ <;> rw [Nat.pow_succ] <;> push_cast <;> omega

/-- A count is what the wrapped counter holds exactly when it is in range. -/
theorem wrap_natCast_iff {w n : Nat} : wrap (w + 1) n = n ↔ n < 2 ^ w := by
  constructor
  · intro h
    have hlt : wrap (w + 1) n < (((2 ^ (w + 1) : Nat) : Int) + 1) / 2 :=
      Int.bmod_lt (Nat.two_pow_pos _)
    rw [h, Nat.pow_succ] at hlt
    have hn : (n : Int) < ((2 ^ w : Nat) : Int) := by push_cast at hlt ⊢; omega
    exact Int.ofNat_lt.mp hn
  · intro h
    have hn : (n : Int) < ((2 ^ w : Nat) : Int) := Int.ofNat_lt.mpr h
    push_cast at hn
    refine wrap_eq_self ?_ hn
    have : (0 : Int) ≤ 2 ^ w := Int.le_of_lt (Int.pow_pos (by decide))
    omega

end Tlpi
