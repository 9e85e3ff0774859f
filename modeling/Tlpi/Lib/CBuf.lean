import Mathlib.Data.List.TakeWhile

/-!
# Buffers and the strings in them

A buffer is the list of its bytes. Storing at its start leaves the rest as it was, so a string that
is stored without its terminator runs on into older bytes. A loop that advances a pointer is stated
over memory by address (`Mem`).
-/

namespace Tlpi

/-- Store `got` at the start of a buffer. -/
def fill {α : Type*} (buf got : List α) : List α := got ++ buf.drop got.length

/-- The string at the start of a buffer, without its terminator. -/
def cstr (buf : List UInt8) : List UInt8 := buf.takeWhile (· ≠ 0)

/-- A string whose terminator is among the bytes stored is made of these bytes. -/
theorem cstr_fill {buf got : List UInt8} (h : 0 ∈ got) : cstr (fill buf got) ++ [0] <+: got := by
  induction got generalizing buf with
  | nil => simp at h
  | cons b got ih =>
    have hfill : fill buf (b :: got) = b :: fill (buf.drop 1) got := by
      simp [fill]
    rcases eq_or_ne b 0 with rfl | hb
    · simp [hfill, cstr]
    · have hmem : 0 ∈ got := (List.mem_cons.mp h).resolve_left hb.symm
      have hcons : cstr (b :: fill (buf.drop 1) got) = b :: cstr (fill (buf.drop 1) got) := by
        simp [cstr, hb]
      rw [hfill, hcons, List.cons_append]
      exact List.prefix_cons_inj b |>.mpr (ih hmem)

/-- Such a string does not depend on the older bytes. -/
theorem cstr_fill_of_mem {buf got : List UInt8} (h : 0 ∈ got) :
    cstr (fill buf got) = cstr got := by
  have hlen : (got.takeWhile (· ≠ 0)).length ≠ got.length := by
    intro heq
    have htake := (List.takeWhile_prefix _).eq_of_length heq
    simpa using List.takeWhile_eq_self_iff.mp htake 0 h
  rw [fill, cstr, cstr, List.takeWhile_append, if_neg hlen]

theorem cstr_eq_self {s : List UInt8} (h : 0 ∉ s) : cstr s = s :=
  List.takeWhile_eq_self_iff.mpr fun _ hb => decide_eq_true fun heq => h (heq ▸ hb)

theorem cstr_append_zero (s r : List UInt8) : cstr (s ++ 0 :: r) = cstr s := by
  induction s with
  | nil => rfl
  | cons b s ih =>
    by_cases hb : b = 0
    · simp [cstr, hb]
    · simpa [cstr, hb] using ih

/-- `strncpy(buf, src, n)` for a string `src`, given without its terminator: `n` bytes are stored,
filled up with NULs behind a shorter string. -/
def strncpy (buf src : List UInt8) (n : Nat) : List UInt8 :=
  fill buf (src.take n ++ List.replicate (n - src.length) 0)

/-- A string that fits is stored with its terminator. -/
theorem cstr_strncpy {buf src : List UInt8} {n : Nat} (hnul : 0 ∉ src) (hlen : src.length < n) :
    cstr (strncpy buf src n) = src := by
  have hpos : n - src.length = (n - src.length - 1) + 1 := by omega
  rw [strncpy, List.take_of_length_le hlen.le, hpos, List.replicate_succ,
    cstr_fill_of_mem (by simp), cstr_append_zero, cstr_eq_self hnul]

/-! ### Memory by address -/

abbrev Mem := Nat → UInt8

def Mem.store (mem : Mem) (addr : Nat) (bs : List UInt8) : Mem :=
  fun a => if addr ≤ a then bs.getD (a - addr) (mem a) else mem a

def Mem.load (mem : Mem) (addr n : Nat) : List UInt8 := (List.range n).map fun i => mem (addr + i)

@[simp] theorem Mem.length_load (mem : Mem) (addr n : Nat) : (mem.load addr n).length = n := by
  simp [Mem.load]

@[simp] theorem Mem.store_nil (mem : Mem) (addr : Nat) : mem.store addr [] = mem := by
  funext a
  simp [Mem.store]

theorem Mem.store_store (mem : Mem) (addr : Nat) (bs cs : List UInt8) :
    (mem.store addr bs).store (addr + bs.length) cs = mem.store addr (bs ++ cs) := by
  funext a
  simp only [Mem.store, List.getD_eq_getElem?_getD]
  rcases Nat.lt_or_ge a addr with hlt | hge
  · rw [if_neg (by omega), if_neg (by omega), if_neg (by omega)]
  · rw [if_pos hge, if_pos hge]
    rcases Nat.lt_or_ge a (addr + bs.length) with hlt' | hge'
    · rw [if_neg (by omega), List.getElem?_append_left (by omega)]
    · rw [if_pos hge', List.getElem?_append_right (by omega), List.getElem?_eq_none (l := bs)
        (by omega), Nat.sub_add_eq]
      rfl

theorem Mem.store_of_notMem {mem : Mem} {addr a : Nat} {bs : List UInt8}
    (h : a < addr ∨ addr + bs.length ≤ a) : mem.store addr bs a = mem a := by
  unfold Mem.store
  split
  · rw [List.getD_eq_getElem?_getD, List.getElem?_eq_none (by omega), Option.getD_none]
  · rfl

theorem Mem.load_store (mem : Mem) (addr : Nat) (bs : List UInt8) :
    (mem.store addr bs).load addr bs.length = bs := by
  refine List.ext_getElem (by simp) fun i hi hi' => ?_
  simp [Mem.load, Mem.store, hi']

theorem Mem.load_congr {mem mem' : Mem} {addr n : Nat} (h : ∀ i < n, mem' (addr + i) = mem (addr + i)) :
    mem'.load addr n = mem.load addr n :=
  List.map_congr_left fun i hi => h i (List.mem_range.mp hi)

theorem Mem.load_store_of_disjoint {mem : Mem} {addr addr' n : Nat} {bs : List UInt8}
    (h : addr' + n ≤ addr ∨ addr + bs.length ≤ addr') :
    (mem.store addr bs).load addr' n = mem.load addr' n :=
  Mem.load_congr fun _ _ => Mem.store_of_notMem (by omega)

/-- Store in an object of `size` bytes; `none` if a byte is outside of it. -/
def Mem.storeIn (size : Nat) (mem : Mem) (addr : Nat) (bs : List UInt8) : Option Mem :=
  if addr + bs.length ≤ size then some (mem.store addr bs) else none

theorem Mem.storeIn_eq_some {size : Nat} {mem : Mem} {addr : Nat} {bs : List UInt8}
    (h : addr + bs.length ≤ size) : mem.storeIn size addr bs = some (mem.store addr bs) :=
  if_pos h

/-- The bytes at `addr` in two parts. -/
theorem Mem.load_add (mem : Mem) (addr m n : Nat) :
    mem.load addr (m + n) = mem.load addr m ++ mem.load (addr + m) n := by
  simp [Mem.load, List.range_add, Nat.add_assoc]

/-! ### The string at the start of an object -/

/-- `strlen` of an object of `size` bytes; `none` if there is no terminator in it. -/
def Mem.strlen (size : Nat) (mem : Mem) : Option Nat :=
  if 0 ∈ mem.load 0 size then some (cstr (mem.load 0 size)).length else none

/-- `snprintf(buf + off, n, ...)` for the formatted `text`: at most `n - 1` bytes of it are stored,
with a terminator. -/
def Mem.snprintf (size : Nat) (mem : Mem) (off n : Nat) (text : List UInt8) : Option Mem :=
  if n = 0 then some mem else mem.storeIn size off (text.take (n - 1) ++ [0])

theorem Mem.snprintf_eq_some (size off n : Nat) {mem : Mem} {text : List UInt8} (hn : 0 < n)
    (h : off + n ≤ size) :
    mem.snprintf size off n text = some (mem.store off (text.take (n - 1) ++ [0])) := by
  rw [Mem.snprintf, if_neg (by omega), Mem.storeIn_eq_some]
  rw [List.length_append, List.length_take, List.length_singleton]
  omega

theorem zero_notMem_cstr (s : List UInt8) : 0 ∉ cstr s := fun hmem => by
  simpa using List.mem_takeWhile_imp hmem

theorem Mem.load_take {m n : Nat} (mem : Mem) (addr : Nat) (h : m ≤ n) :
    mem.load addr m = (mem.load addr n).take m := by
  obtain ⟨k, rfl⟩ := Nat.exists_eq_add_of_le h
  rw [Mem.load_add, List.take_left' (Mem.length_load ..)]

/-- The string ends at the first zero of what is stored with a terminator. -/
theorem Mem.cstr_load (size : Nat) {mem : Mem} {s : List UInt8}
    (h : mem.load 0 (s.length + 1) = s ++ [0]) (hlt : s.length < size) :
    cstr (mem.load 0 size) = cstr s ∧ mem.strlen size = some (cstr s).length := by
  obtain ⟨k, rfl⟩ := Nat.exists_eq_add_of_le (show s.length + 1 ≤ size from hlt)
  have hload : mem.load 0 (s.length + 1 + k) = s ++ 0 :: mem.load (0 + (s.length + 1)) k := by
    rw [Mem.load_add, h, List.append_assoc, List.singleton_append]
  have hcstr : cstr (mem.load 0 (s.length + 1 + k)) = cstr s := by
    rw [hload, cstr_append_zero]
  refine ⟨hcstr, ?_⟩
  rw [Mem.strlen, if_pos (by rw [hload]; simp), hcstr]

end Tlpi
