import Mathlib.Algebra.Ring.Nat
import Mathlib.Data.List.Basic

/-!
# Little-endian numbers

The bytes of a fixed-width number, least significant first, as a structure that holds the number
is laid out in memory and written to a descriptor.
-/

namespace Tlpi

/-- The `n` low bytes of `x`. -/
def leBytes : Nat → Nat → List UInt8
  | 0, _ => []
  | n + 1, x => UInt8.ofNat x :: leBytes n (x / 256)

/-- The number that the bytes represent. -/
def leNat : List UInt8 → Nat
  | [] => 0
  | b :: bs => b.toNat + 256 * leNat bs

@[simp] theorem length_leBytes (n x : Nat) : (leBytes n x).length = n := by
  induction n generalizing x with
  | zero => rfl
  | succ n ih => simp [leBytes, ih]

/-- A number that fits is what its bytes represent. -/
theorem leNat_leBytes {n x : Nat} (h : x < 256 ^ n) : leNat (leBytes n x) = x := by
  induction n generalizing x with
  | zero =>
    rw [Nat.pow_zero, Nat.lt_one_iff] at h
    rw [h]
    rfl
  | succ n ih =>
    have hx : x / 256 < 256 ^ n := Nat.div_lt_of_lt_mul (by rwa [Nat.pow_succ'] at h)
    rw [leBytes, leNat, ih hx, UInt8.toNat_ofNat']
    exact Nat.mod_add_div x 256

/-- A machine word is what its bytes represent. -/
theorem ofNat_leNat_leBytes {n : Nat} (x : BitVec (8 * n)) :
    BitVec.ofNat (8 * n) (leNat (leBytes n x.toNat)) = x := by
  have hx : x.toNat < 256 ^ n := by
    have := x.isLt
    rwa [Nat.pow_mul] at this
  rw [leNat_leBytes hx, BitVec.ofNat_toNat, BitVec.setWidth_eq]

theorem leNat_lt (bs : List UInt8) : leNat bs < 256 ^ bs.length := by
  induction bs with
  | nil => simp [leNat]
  | cons b bs ih =>
    have hb := b.toNat_lt
    rw [leNat, List.length_cons, Nat.pow_succ]
    omega

/-- Bytes are those of the number that they represent. -/
theorem leBytes_leNat (bs : List UInt8) : leBytes bs.length (leNat bs) = bs := by
  induction bs with
  | nil => rfl
  | cons b bs ih =>
    have hb := b.toNat_lt
    have hdiv : (b.toNat + 256 * leNat bs) / 256 = leNat bs := by omega
    have hmod : UInt8.ofNat (b.toNat + 256 * leNat bs) = b := by
      rw [← UInt8.toNat_inj, UInt8.toNat_ofNat']
      omega
    rw [List.length_cons, leNat, leBytes, hdiv, hmod, ih]

theorem leBytes_ofNat_leNat {n : Nat} {bs : List UInt8} (h : bs.length = n) :
    leBytes n (BitVec.ofNat (8 * n) (leNat bs)).toNat = bs := by
  subst h
  have hlt := leNat_lt bs
  rw [BitVec.toNat_ofNat, Nat.mod_eq_of_lt (by rwa [Nat.pow_mul]), leBytes_leNat]

/-! ### Arrays of `int` -/

def intBytes (xs : List (BitVec 32)) : List UInt8 := xs.flatMap fun x => leBytes 4 x.toNat

def intsOf : List UInt8 → List (BitVec 32)
  | b0 :: b1 :: b2 :: b3 :: bs => BitVec.ofNat 32 (leNat [b0, b1, b2, b3]) :: intsOf bs
  | _ => []

theorem intBytes_cons (x : BitVec 32) (xs : List (BitVec 32)) :
    intBytes (x :: xs) = leBytes 4 x.toNat ++ intBytes xs := rfl

@[simp] theorem length_intBytes (xs : List (BitVec 32)) : (intBytes xs).length = 4 * xs.length := by
  induction xs with
  | nil => rfl
  | cons x xs ih =>
    rw [intBytes_cons, List.length_append, length_leBytes, ih, List.length_cons]
    omega

@[simp] theorem intsOf_intBytes (xs : List (BitVec 32)) : intsOf (intBytes xs) = xs := by
  induction xs with
  | nil => rfl
  | cons x xs ih =>
    have hcons : intsOf (intBytes (x :: xs)) =
      BitVec.ofNat 32 (leNat (leBytes 4 x.toNat)) :: intsOf (intBytes xs) := rfl
    rw [hcons, ih]
    exact congrArg (· :: xs) (ofNat_leNat_leBytes (n := 4) x)

end Tlpi
