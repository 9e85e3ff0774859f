import Mathlib.Data.List.Basic
import Mathlib.Data.Int.Notation
import Tlpi.Lib.Strtol

/-!
# User and group IDs from names (`ch08-users_groups/ugid_functions.c`)

A numeric string stands for the number itself. The entries of the password and group files are
parameters.
-/

namespace Tlpi.Ugid

abbrev CString := List Char

/-- `uid_t`, `gid_t` and `id_t`. -/
abbrev Id := BitVec 32

/-- The ID that stands for an error. -/
def badId : Id := -1

/-- The password and group files: the ID of a name, if it has an entry. -/
structure Accounts where
  getpwnam : CString → Option Id
  getgrnam : CString → Option Id

/-- The ID for a name that is looked up with `lookup` if it is not a number. -/
def idFromName (lookup : CString → Option Id) (name : CString) : Id :=
  if name = [] then badId
  else
    let res := Num.strtol 10 name
    if res.endptr = [] then BitVec.ofInt 32 res.val
    else (lookup name).getD badId

def userIdFromName (accounts : Accounts) (name : CString) : Id :=
  idFromName accounts.getpwnam name

def groupIdFromName (accounts : Accounts) (name : CString) : Id :=
  idFromName accounts.getgrnam name

/-! ### Numerals -/

open Tlpi.Num (Numeral Digits Magnitude LONG_MIN LONG_MAX clamp)

/-- What is promised of the ID for a name: it is the number that the name is a numeral of, or the
ID of the account of that name. -/
def Exact (lookup : CString → Option Id) (name : CString) (id : Id) : Prop :=
  (id ≠ badId → (∃ v, Numeral (Digits 10) name v ∧ id.toNat = v) ∨ lookup name = some id) ∧
    ∀ v, Numeral (Digits 10) name v → 0 ≤ v → v < 2 ^ 32 - 1 → id.toNat = v

/-- A numeral that does not come out as another number. One above `LONG_MAX` comes out as the error
value. -/
def Safe (lookup : CString → Option Id) (name : CString) : Prop :=
  ∀ v, Numeral (Digits 10) name v → 0 ≤ v ∧ v < 2 ^ 32 ∨ LONG_MAX < v ∨
    LONG_MIN ≤ v ∧ v % 2 ^ 32 = 2 ^ 32 - 1 ∨
      lookup name = some (BitVec.ofInt 32 (max v LONG_MIN))

variable {lookup : CString → Option Id} {name : CString} {v : Int}

theorem magnitude_ten : Magnitude 10 = Digits 10 := by
  funext t n
  simp [Magnitude]

theorem idFromName_of_numeral (h : Numeral (Digits 10) name v) :
    idFromName lookup name = BitVec.ofInt 32 (clamp v) := by
  rw [← magnitude_ten] at h
  have hne : name ≠ [] := by
    rintro rfl
    obtain ⟨n, hmag, -⟩ := h.scan
    obtain ⟨c, hc, -⟩ := hmag.head
    cases hc
  rw [idFromName, if_neg hne, Num.strtol_of_numeral h]
  rfl

theorem idFromName_of_not_numeral (h : ∀ v, ¬Numeral (Digits 10) name v) :
    idFromName lookup name = if name = [] then badId else (lookup name).getD badId := by
  rw [idFromName]
  split
  · rfl
  · next hne =>
    dsimp only
    rw [if_neg]
    intro hend
    obtain ⟨v, hv⟩ := Num.numeral_of_endptr hne hend
    rw [magnitude_ten] at hv
    exact h v hv

theorem exact_iff_of_numeral (h : Numeral (Digits 10) name v) :
    Exact lookup name (BitVec.ofInt 32 (clamp v)) ↔ Safe lookup name := by
  have huniq {w : Int} (hw : Numeral (Digits 10) name w) : w = v := by
    rw [← magnitude_ten] at h hw
    exact hw.unique h
  have hnat : ((BitVec.ofInt 32 (clamp v)).toNat : Int) = clamp v % 2 ^ 32 := by
    rw [BitVec.toNat_ofInt]
    omega
  have hbad : BitVec.ofInt 32 (clamp v) = badId ↔ clamp v % 2 ^ 32 = 2 ^ 32 - 1 := by
    have hneg : badId.toNat = 2 ^ 32 - 1 := rfl
    rw [← BitVec.toNat_inj, hneg]
    omega
  have hclamp : LONG_MAX < v ∧ clamp v = LONG_MAX ∨ v < LONG_MIN ∧ clamp v = LONG_MIN ∨
      LONG_MIN ≤ v ∧ v ≤ LONG_MAX ∧ clamp v = v := by
    simp only [clamp, LONG_MAX, LONG_MIN]
    omega
  simp only [LONG_MAX, LONG_MIN] at hclamp
  constructor
  · rintro ⟨hid, -⟩ w hw
    obtain rfl := huniq hw
    simp only [LONG_MAX, LONG_MIN]
    by_cases hb : BitVec.ofInt 32 (clamp w) = badId
    · rw [hbad] at hb
      omega
    · rcases hid hb with ⟨u, hu, heq⟩ | hl
      · obtain rfl := huniq hu
        omega
      · by_cases hmax : 2 ^ 63 - 1 < w
        · exact .inr (.inl hmax)
        · have hcl : clamp w = max w (-2 ^ 63) := by omega
          rw [hcl] at hl
          exact .inr (.inr (.inr hl))
  · intro hsafe
    have hv := hsafe v h
    simp only [LONG_MAX, LONG_MIN] at hv
    refine ⟨fun hb => ?_, fun w hw h0 h1 => ?_⟩
    · rw [Ne, hbad] at hb
      rcases hv with hv | hv | hv | hv
      · exact .inl ⟨v, h, by omega⟩
      · omega
      · omega
      · have hcl : clamp v = max v (-2 ^ 63) := by omega
        rw [hcl]
        exact .inr hv
    · obtain rfl := huniq hw
      omega

theorem idFromName_exact_iff :
    Exact lookup name (idFromName lookup name) ↔ Safe lookup name := by
  by_cases hnum : ∃ v, Numeral (Digits 10) name v
  · obtain ⟨v, h⟩ := hnum
    rw [idFromName_of_numeral h]
    exact exact_iff_of_numeral h
  · rw [not_exists] at hnum
    rw [idFromName_of_not_numeral hnum]
    refine ⟨fun _ v h => absurd h (hnum v), fun _ => ⟨fun hid => .inr ?_, fun v h => absurd h (hnum v)⟩⟩
    split at hid
    · exact absurd rfl hid
    · cases hl : lookup name with
      | none => simp [hl] at hid
      | some id => simp_all

/-- The functions name no wrong account exactly for the numerals that come out as themselves. -/
theorem idsFromName_exact_iff (accounts : Accounts) (name : CString) :
    (Exact accounts.getpwnam name (userIdFromName accounts name) ↔ Safe accounts.getpwnam name) ∧
      (Exact accounts.getgrnam name (groupIdFromName accounts name) ↔
        Safe accounts.getgrnam name) :=
  ⟨idFromName_exact_iff, idFromName_exact_iff⟩

/-- The numeral of 2³² comes out as the ID of the superuser. -/
theorem userIdFromName_not_exact :
    let accounts : Accounts :=
      ⟨fun name => if name = "root".toList then some 0 else none, fun _ => none⟩
    userIdFromName accounts "4294967296".toList = 0 ∧
      ¬Exact accounts.getpwnam "4294967296".toList (userIdFromName accounts "4294967296".toList) := by
  refine ⟨by decide, fun h => ?_⟩
  have hdigits : ∀ c ∈ "4294967296".toList, Num.isDigitIn 10 c := List.all_eq_true.mp (by decide)
  have hnum : Numeral (Digits 10) "4294967296".toList 4294967296 :=
    ⟨[], [], _, 4294967296, rfl, nofun, ⟨by decide, hdigits, by decide⟩, .inl ⟨.inl rfl, rfl⟩⟩
  exact absurd (idFromName_exact_iff.mp h _ hnum) (by decide)

end Tlpi.Ugid
