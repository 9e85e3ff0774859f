import Mathlib.Algebra.Group.Nat.Defs
import Mathlib.Data.List.Basic
import Tlpi.Lib.Wrap

/-!
# Go strings

A string is the list of its bytes, and `len` is the length of this list. The functions that look at
characters decode the bytes as UTF-8; a byte that does not start a valid encoding is a character of
its own. `fields` cuts a string at white space, as `strings.Fields` does.
-/

namespace Tlpi.Go

abbrev Str := List UInt8

/-- A decoded character: its code point, and the bytes that encode it. -/
structure Rune where
  val : Nat
  bytes : Str
  deriving DecidableEq, Repr

/-- The code point for a byte that is not part of a valid encoding. -/
def RuneError : Nat := 0xFFFD

/-- The length of an encoding by its first byte, and the range of its second byte. -/
def acceptRange (b : UInt8) : Option (Nat × UInt8 × UInt8) :=
  if 0xC2 ≤ b ∧ b ≤ 0xDF then some (2, 0x80, 0xBF)
  else if b = 0xE0 then some (3, 0xA0, 0xBF)
  else if b = 0xED then some (3, 0x80, 0x9F)
  else if 0xE1 ≤ b ∧ b ≤ 0xEF then some (3, 0x80, 0xBF)
  else if b = 0xF0 then some (4, 0x90, 0xBF)
  else if 0xF1 ≤ b ∧ b ≤ 0xF3 then some (4, 0x80, 0xBF)
  else if b = 0xF4 then some (4, 0x80, 0x8F)
  else none

/-- The bytes behind the first one are in their ranges. -/
def wellFormed (lo hi : UInt8) : Str → Bool
  | [] => false
  | b :: s => lo ≤ b && b ≤ hi && s.all fun b => 0x80 ≤ b && b ≤ 0xBF

/-- The character at the start of the string `b :: s`. -/
def decodeRune (b : UInt8) (s : Str) : Rune :=
  if b < 0x80 then ⟨b.toNat, [b]⟩
  else
    match acceptRange b with
    | none => ⟨RuneError, [b]⟩
    | some (size, lo, hi) =>
      let rest := s.take (size - 1)
      if rest.length = size - 1 ∧ wellFormed lo hi rest then
        ⟨rest.foldl (fun r b => r * 64 + b.toNat % 64) (b.toNat % 2 ^ (7 - size)), b :: rest⟩
      else ⟨RuneError, [b]⟩

/-- The characters of a string, the first `skip` bytes of which belong to the one before. -/
def runesFrom : Nat → Str → List Rune
  | _, [] => []
  | skip + 1, _ :: s => runesFrom skip s
  | 0, b :: s => decodeRune b s :: runesFrom ((decodeRune b s).bytes.length - 1) s

def runes (s : Str) : List Rune := runesFrom 0 s

/-- `utf8.RuneCountInString`. -/
def runeCount (s : Str) : Nat := (runes s).length

/-- `unicode.IsSpace`. -/
def isSpace (r : Nat) : Bool :=
  (9 ≤ r && r ≤ 13) || r = 0x20 || r = 0x85 || r = 0xA0 || r = 0x1680 ||
    (0x2000 ≤ r && r ≤ 0x200A) || r = 0x2028 || r = 0x2029 || r = 0x202F || r = 0x205F ||
    r = 0x3000

/-- The fields of the characters, where `cur` has been read of the first one. -/
def fieldsFrom : Str → List Rune → List Str
  | cur, [] => if cur = [] then [] else [cur]
  | cur, r :: rs =>
    if isSpace r.val then (if cur = [] then [] else [cur]) ++ fieldsFrom [] rs
    else fieldsFrom (cur ++ r.bytes) rs

/-- `strings.Fields`. -/
def fields (s : Str) : List Str := fieldsFrom [] (runes s)

/-- A string literal as the bytes of its characters, which must be in ASCII. -/
def ascii (s : String) : Str := s.toList.map fun c => c.toNat.toUInt8

example : fields (ascii " [ 12\t7 ]\n") = [ascii "[", ascii "12", ascii "7", ascii "]"] := by decide

variable {b c : UInt8} {s cur w : Str} {rs : List Rune}

/-! ### Decoding -/

theorem wellFormed_le {lo hi : UInt8} (hlo : 0x80 ≤ lo) (h : wellFormed lo hi s) :
    ∀ c ∈ s, 0x80 ≤ c := by
  cases s with
  | nil => exact nofun
  | cons b s =>
    simp only [wellFormed, Bool.and_eq_true, decide_eq_true_eq, List.all_eq_true] at h
    exact List.forall_mem_cons.mpr ⟨UInt8.le_trans hlo h.1.1, fun c hc => (h.2 c hc).1⟩

theorem acceptRange_le {size : Nat} {lo hi : UInt8} (h : acceptRange b = some (size, lo, hi)) :
    0x80 ≤ lo := by
  unfold acceptRange at h
  repeat' split at h
  all_goals cases h <;> decide

/-- The character begins with the byte at hand and goes on with some of the following ones. -/
theorem decodeRune_bytes (b : UInt8) (s : Str) :
    ∃ rest, (decodeRune b s).bytes = b :: rest ∧ rest <+: s := by
  unfold decodeRune
  split
  · exact ⟨[], rfl, List.nil_prefix⟩
  · split
    · exact ⟨[], rfl, List.nil_prefix⟩
    · dsimp only
      split
      · exact ⟨_, rfl, List.take_prefix ..⟩
      · exact ⟨[], rfl, List.nil_prefix⟩

/-- An ASCII byte is a character, and no part of any other one. -/
theorem decodeRune_of_lt (h : b < 0x80) : decodeRune b s = ⟨b.toNat, [b]⟩ := if_pos h

theorem le_of_mem_decodeRune (h : ¬b < 0x80) : ∀ c ∈ (decodeRune b s).bytes, 0x80 ≤ c := by
  have hb : 0x80 ≤ b := UInt8.not_lt.mp h
  rw [decodeRune, if_neg h]
  split
  · simpa using hb
  · next hr =>
    dsimp only
    split
    · next hw => exact List.forall_mem_cons.mpr ⟨hb, wellFormed_le (acceptRange_le hr) hw.2⟩
    · simpa using hb

/-- The characters of a string are made of its bytes. -/
theorem flatMap_runesFrom (skip : Nat) (s : Str) :
    (runesFrom skip s).flatMap Rune.bytes = s.drop skip := by
  induction s generalizing skip with
  | nil => simp [runesFrom]
  | cons b s ih =>
    cases skip with
    | zero =>
      obtain ⟨rest, hb, hrest⟩ := decodeRune_bytes b s
      rw [runesFrom, List.flatMap_cons, ih, hb, List.length_cons, Nat.add_sub_cancel]
      rw [List.cons_append, ← List.prefix_iff_eq_append.mp hrest]
      simp
    | succ skip => simpa [runesFrom] using ih skip

/-- A newline is a character of its own. -/
theorem newline_of_mem_runesFrom {skip : Nat} {r : Rune} (hr : r ∈ runesFrom skip s)
    (h : 10 ∈ r.bytes) : r.val = 10 := by
  induction s generalizing skip with
  | nil => cases hr
  | cons b s ih =>
    cases skip with
    | zero =>
      rw [runesFrom, List.mem_cons] at hr
      rcases hr with rfl | hr
      · by_cases hb : b < 0x80
        · rw [decodeRune_of_lt hb] at h ⊢
          obtain rfl : 10 = b := by simpa using h
          rfl
        · exact absurd (le_of_mem_decodeRune hb 10 h) (by decide)
      · exact ih hr
    | succ skip => exact ih hr

/-! ### Fields -/

/-- What holds of the open field, while characters are added to it, holds of every field. -/
theorem forall_mem_fieldsFrom {P : Str → Prop} (hnil : P [])
    (hadd : ∀ r ∈ rs, ∀ cur, P cur → ¬isSpace r.val → P (cur ++ r.bytes)) (hcur : P cur) :
    ∀ w ∈ fieldsFrom cur rs, w ≠ [] ∧ P w := by
  have hclose {cur : Str} (hcur : P cur) :
      ∀ w ∈ (if cur = [] then [] else [cur]), w ≠ [] ∧ P w := by
    split
    · exact List.forall_mem_nil _
    · next hne => exact List.forall_mem_singleton.mpr ⟨hne, hcur⟩
  induction rs generalizing cur with
  | nil => exact hclose hcur
  | cons r rs ih =>
    rw [List.forall_mem_cons] at hadd
    rw [fieldsFrom]
    split
    · exact List.forall_mem_append.mpr ⟨hclose hcur, ih hadd.2 hnil⟩
    · next hspace => exact ih hadd.2 (hadd.1 cur hcur hspace)

/-- No field is empty or has a newline in it. -/
theorem fields_spec : ∀ w ∈ fields s, w ≠ [] ∧ 10 ∉ w := by
  refine forall_mem_fieldsFrom List.not_mem_nil (fun r hr cur hcur hspace hmem => ?_)
    List.not_mem_nil
  rcases List.mem_append.mp hmem with hmem | hmem
  · exact hcur hmem
  · rw [newline_of_mem_runesFrom hr hmem] at hspace
    exact hspace rfl

theorem bytes_ne_nil (skip : Nat) (s : Str) : ∀ r ∈ runesFrom skip s, r.bytes ≠ [] := by
  induction s generalizing skip with
  | nil => exact nofun
  | cons b s ih =>
    cases skip with
    | zero =>
      obtain ⟨rest, hb, -⟩ := decodeRune_bytes b s
      refine List.forall_mem_cons.mpr ⟨?_, ih _⟩
      rw [hb]
      exact List.cons_ne_nil _ _
    | succ skip => exact ih _

theorem length_joined_fieldsFrom (cur : Str) (hrs : ∀ r ∈ rs, r.bytes ≠ []) :
    (Wrap.joined 32 (fieldsFrom cur rs)).length ≤ cur.length + (rs.flatMap Rune.bytes).length := by
  induction rs generalizing cur with
  | nil =>
    rw [fieldsFrom]
    split
    · exact Nat.zero_le _
    · simp
  | cons r rs ih =>
    rw [List.forall_mem_cons] at hrs
    have hr := List.length_pos_iff.mpr hrs.1
    rw [fieldsFrom, List.flatMap_cons, List.length_append]
    split
    · have hnil := ih [] hrs.2
      rw [List.length_nil] at hnil
      split
      · rw [List.nil_append]
        omega
      · by_cases hrest : fieldsFrom [] rs = []
        · rw [hrest, List.append_nil, Wrap.joined_singleton]
          omega
        · rw [List.singleton_append, Wrap.joined_cons hrest, List.length_append, List.length_cons]
          omega
    · have := ih (cur ++ r.bytes) hrs.2
      rw [List.length_append] at this
      omega

/-- The fields with single blanks between them are not longer than the string. -/
theorem length_joined_fields (s : Str) : (Wrap.joined 32 (fields s)).length ≤ s.length := by
  have h := length_joined_fieldsFrom [] (bytes_ne_nil 0 s)
  rw [flatMap_runesFrom] at h
  simpa [fields, runes] using h

end Tlpi.Go
