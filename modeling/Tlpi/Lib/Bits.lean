import Mathlib.Data.List.Basic

/-!
# Bit masks

Masks that are put together from the bits that each character of a string stands for.
-/

namespace Tlpi

variable {w : Nat}

theorem ite_or_bits (a b : Prop) [Decidable a] [Decidable b] (x : BitVec w) :
    (if a ∨ b then x else 0) = (if a then x else 0) ||| (if b then x else 0) := by
  by_cases ha : a <;> by_cases hb : b <;> simp [ha, hb]

end Tlpi
