import Mathlib.Logic.Function.Basic
import Tlpi.Lib.Cut

/-!
# Strings on the heap

Memory is made of blocks, and a pointer is a block with an offset into it. A string is ended in place
by a null character at one of its characters; then two strings stand in its block.
-/

namespace Tlpi

structure Ptr where
  block : Nat
  off : Nat
  deriving DecidableEq, Repr

def Ptr.add (p : Ptr) (n : Nat) : Ptr := { p with off := p.off + n }

/-- The characters of each block; the blocks from `next` on are not in use. -/
structure Heap where
  blocks : Nat → List Char
  next : Nat

namespace Heap

/-- The string at a pointer, without its terminator. -/
def cstr (h : Heap) (p : Ptr) : List Char :=
  ((h.blocks p.block).drop p.off).takeWhile (· ≠ '\x00')

/-- A copy of a string in a new block. -/
def strdup (h : Heap) (p : Ptr) : Heap × Ptr :=
  (⟨Function.update h.blocks h.next (h.cstr p ++ ['\x00']), h.next + 1⟩, ⟨h.next, 0⟩)

def strchr (h : Heap) (p : Ptr) (c : Char) : Option Ptr :=
  if c ∈ h.cstr p then some (p.add ((h.cstr p).idxOf c)) else none

def store (h : Heap) (p : Ptr) (c : Char) : Heap :=
  { h with blocks := Function.update h.blocks p.block ((h.blocks p.block).set p.off c) }

/-- `*p = '\0'`, unless the pointer is null. -/
def terminate (h : Heap) : Option Ptr → Heap
  | some p => h.store p '\x00'
  | none => h

def free (h : Heap) (p : Ptr) : Heap := { h with blocks := Function.update h.blocks p.block [] }

/-- The block of `p` is `pre`, the string `s` at `p` with its terminator, and `post`. -/
structure Holds (h : Heap) (p : Ptr) (pre s post : List Char) : Prop where
  block : h.blocks p.block = pre ++ (s ++ '\x00' :: post)
  off : p.off = pre.length
  nul : '\x00' ∉ s

variable {h : Heap} {p : Ptr} {pre s post x y : List Char} {c : Char}

theorem Holds.cstr (H : h.Holds p pre s post) : h.cstr p = s := by
  have htake : s.takeWhile (· ≠ '\x00') = s :=
    List.takeWhile_eq_self_iff.mpr fun c hc => decide_eq_true fun heq => H.nul (heq ▸ hc)
  rw [Heap.cstr, H.block, H.off, List.drop_left, List.takeWhile_append, if_pos (by rw [htake])]
  simp

theorem nul_notMem_cstr (h : Heap) (p : Ptr) : '\x00' ∉ h.cstr p := fun hmem => by
  simpa using List.mem_takeWhile_imp hmem

theorem holds_strdup (h : Heap) (p : Ptr) : (h.strdup p).1.Holds (h.strdup p).2 [] (h.cstr p) [] where
  block := Function.update_self ..
  off := rfl
  nul := h.nul_notMem_cstr p

theorem Holds.strchr_eq_none (H : h.Holds p pre s post) (hc : cut c s = none) :
    h.strchr p c = none := by
  rw [strchr, H.cstr]
  exact if_neg (cut_eq_none.mp hc)

theorem Holds.strchr_eq_some (H : h.Holds p pre s post) (hc : cut c s = some (x, y)) :
    h.strchr p c = some (p.add x.length) := by
  obtain ⟨rfl, hx⟩ := cut_eq_some.mp hc
  rw [strchr, H.cstr, if_pos (by simp), List.idxOf_append_of_notMem hx, List.idxOf_cons_self,
    Nat.add_zero]

/-- The string before the character that was overwritten, and the one behind it. -/
theorem Holds.store (H : h.Holds p pre s post) (hc : cut c s = some (x, y)) :
    (h.store (p.add x.length) '\x00').Holds p pre x (y ++ '\x00' :: post) ∧
      (h.store (p.add x.length) '\x00').Holds (p.add (x.length + 1)) (pre ++ (x ++ ['\x00'])) y
        post := by
  obtain ⟨rfl, -⟩ := cut_eq_some.mp hc
  have hnul := H.nul
  rw [List.mem_append, List.mem_cons, not_or, not_or] at hnul
  have hblock : (h.store (p.add x.length) '\x00').blocks p.block =
      pre ++ (x ++ '\x00' :: (y ++ '\x00' :: post)) := by
    refine (Function.update_self ..).trans ?_
    have hset : (pre ++ (x ++ c :: y ++ '\x00' :: post)).set (pre.length + x.length) '\x00' =
        pre ++ (x ++ '\x00' :: (y ++ '\x00' :: post)) := by
      simp [List.set_append_right]
    rw [← hset, ← H.block, ← H.off]
    rfl
  refine ⟨⟨hblock, H.off, hnul.1⟩, ?_, ?_, hnul.2.2⟩
  · exact hblock.trans (by simp)
  · simp [Ptr.add, H.off]

theorem store_blocks_of_ne {b : Nat} (hb : b ≠ p.block) : (h.store p c).blocks b = h.blocks b :=
  Function.update_of_ne hb ..

end Heap

end Tlpi
