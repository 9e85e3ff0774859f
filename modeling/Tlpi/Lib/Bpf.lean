import Mathlib.Data.List.Basic
import Tlpi.Lib.Machine

/-!
# Classic BPF

Programs of `struct sock_filter` instructions, run on data that is read a word at a time. Jumps
only go forward, so a program runs at most once through its instructions: `run` follows the
program counter, `exec` computes the same result by recursion on the instructions ahead.
-/

namespace Tlpi.Bpf

/-- `struct sock_filter`. -/
structure SockFilter where
  code : BitVec 16
  jt : BitVec 8
  jf : BitVec 8
  k : BitVec 32
  deriving DecidableEq, Repr

def BPF_LD : BitVec 16 := 0x00
def BPF_JMP : BitVec 16 := 0x05
def BPF_RET : BitVec 16 := 0x06

def BPF_W : BitVec 16 := 0x00

def BPF_ABS : BitVec 16 := 0x20

def BPF_JA : BitVec 16 := 0x00
def BPF_JEQ : BitVec 16 := 0x10
def BPF_JGT : BitVec 16 := 0x20
def BPF_JGE : BitVec 16 := 0x30
def BPF_JSET : BitVec 16 := 0x40

def BPF_K : BitVec 16 := 0x00
def BPF_X : BitVec 16 := 0x08
def BPF_A : BitVec 16 := 0x10

def BPF_MEMWORDS : Nat := 16

/-- `BPF_STMT(code, k)` -/
def stmt (code : BitVec 16) (k : BitVec 32) : SockFilter := ⟨code, 0, 0, k⟩

/-- `BPF_JUMP(code, k, jt, jf)` -/
def jump (code : BitVec 16) (k : BitVec 32) (jt jf : BitVec 8) : SockFilter := ⟨code, jt, jf, k⟩

namespace SockFilter

/-- `BPF_CLASS` -/
def cls (i : SockFilter) : BitVec 16 := i.code &&& 0x07

/-- `BPF_SIZE` -/
def size (i : SockFilter) : BitVec 16 := i.code &&& 0x18

/-- `BPF_MODE` -/
def mode (i : SockFilter) : BitVec 16 := i.code &&& 0xe0

/-- `BPF_OP` -/
def op (i : SockFilter) : BitVec 16 := i.code &&& 0xf0

end SockFilter

/-- The accumulator, the index register and the scratch memory. -/
structure Regs where
  a : BitVec 32
  x : BitVec 32
  mem : Nat → BitVec 32

/-- The second operand, as `BPF_SRC` selects it. -/
def operand (i : SockFilter) (r : Regs) : BitVec 32 :=
  if i.code &&& BPF_X = 0 then i.k else r.x

/-- What an instruction does: go on `off` instructions after the next one, end the program with a
value, or be none that the program may contain. -/
inductive Effect where
  | next (off : Nat) (r : Regs)
  | ret (v : BitVec 32)
  | fault

/-- The value of an arithmetic instruction, in the order `BPF_ADD`, `BPF_SUB`, `BPF_MUL`, `BPF_DIV`,
`BPF_OR`, `BPF_AND`, `BPF_LSH`, `BPF_RSH`, `BPF_NEG`, `BPF_MOD` and `BPF_XOR`; there is none for a
division by zero. -/
def arith (op : BitVec 16) (a v : BitVec 32) : Option (BitVec 32) :=
  match op with
  | 0x00 => some (a + v)
  | 0x10 => some (a - v)
  | 0x20 => some (a * v)
  | 0x30 => if v = 0 then none else some (a / v)
  | 0x40 => some (a ||| v)
  | 0x50 => some (a &&& v)
  | 0x60 => some (a <<< (v &&& 31))
  | 0x70 => some (a >>> (v &&& 31))
  | 0x80 => some (-a)
  | 0x90 => if v = 0 then none else some (a % v)
  | 0xa0 => some (a ^^^ v)
  | _ => none

/-- The condition of a jump: `BPF_JEQ`, `BPF_JGT`, `BPF_JGE` and `BPF_JSET`. -/
def test (op : BitVec 16) (a v : BitVec 32) : Bool :=
  match op with
  | 0x10 => a = v
  | 0x20 => v < a
  | 0x30 => v ≤ a
  | 0x40 => a &&& v ≠ 0
  | _ => false

section
variable (load : BitVec 32 → Option (BitVec 32)) (len : BitVec 32)

/-- The word that a load instruction fetches. -/
def fetch (i : SockFilter) (r : Regs) : Option (BitVec 32) :=
  if i.size = BPF_W then
    match i.mode with
    | 0x00 => some i.k -- BPF_IMM
    | 0x20 => load i.k -- BPF_ABS
    | 0x60 => if i.k.toNat < BPF_MEMWORDS then some (r.mem i.k.toNat) else none -- BPF_MEM
    | 0x80 => some len -- BPF_LEN
    | _ => none
  else none

/-- A store into the scratch memory. -/
def store (i : SockFilter) (r : Regs) (v : BitVec 32) : Effect :=
  if i.k.toNat < BPF_MEMWORDS then
    .next 0 { r with mem := fun n => if n = i.k.toNat then v else r.mem n }
  else .fault

/-- The classes in the order of their numbers: `BPF_LD`, `BPF_LDX`, `BPF_ST`, `BPF_STX`, `BPF_ALU`,
`BPF_JMP`, `BPF_RET` and `BPF_MISC`. -/
def effect (i : SockFilter) (r : Regs) : Effect :=
  match i.cls with
  | 0x00 => (fetch load len i r).elim .fault fun v => .next 0 { r with a := v }
  | 0x01 => (fetch load len i r).elim .fault fun v => .next 0 { r with x := v }
  | 0x02 => store i r r.a
  | 0x03 => store i r r.x
  -- the program ends with 0 when it divides by zero
  | 0x04 => (arith i.op r.a (operand i r)).elim (.ret 0) fun v => .next 0 { r with a := v }
  | 0x05 =>
    if i.op = BPF_JA then .next i.k.toNat r
    else if test i.op r.a (operand i r) then .next i.jt.toNat r
    else .next i.jf.toNat r
  | 0x06 => .ret (if i.code &&& 0x18 = BPF_A then r.a else operand i r)
  | _ => if i.code &&& 0xf8 = 0 then .next 0 { r with x := r.a } else .next 0 { r with a := r.x }

/-- The program counter and the registers. -/
structure State where
  pc : Nat
  r : Regs

/-- A program starts at its first instruction with all registers 0. -/
def init : State := ⟨0, ⟨0, 0, fun _ => 0⟩⟩

/-- The state after the instruction at the program counter, if the program goes on. -/
def machine (prog : List SockFilter) : Machine State Unit where
  next s _ := prog[s.pc]?.bind fun i =>
    match effect load len i s.r with
    | .next off r => some ⟨s.pc + 1 + off, r⟩
    | _ => none

/-- Run a program for at most `n` instructions: the value it ends with, if it ends in that time
and at an instruction of its own. -/
def run (prog : List SockFilter) : Nat → State → Option (BitVec 32)
  | 0, _ => none
  | n + 1, s => prog[s.pc]?.bind fun i =>
    match effect load len i s.r with
    | .next off r => run prog n ⟨s.pc + 1 + off, r⟩
    | .ret v => some v
    | .fault => none

/-- The value of the instructions ahead, the first `off` of which are jumped over. -/
def exec : List SockFilter → Nat → Regs → Option (BitVec 32)
  | [], _, _ => none
  | _ :: is, off + 1, r => exec is off r
  | i :: is, 0, r =>
    match effect load len i r with
    | .next off r => exec is off r
    | .ret v => some v
    | .fault => none
end

/-- Where the program counter can go from the instruction `i` at `pc`. -/
def targets (i : SockFilter) (pc : Nat) : List Nat :=
  if i.cls = BPF_RET then []
  else if i.cls = BPF_JMP then
    if i.op = BPF_JA then [pc + 1 + i.k.toNat] else [pc + 1 + i.jt.toNat, pc + 1 + i.jf.toNat]
  else [pc + 1]

/-- No instruction of the program leads out of it. -/
def Closed (prog : List SockFilter) : Prop :=
  0 < prog.length ∧ ∀ pc (h : pc < prog.length), ∀ t ∈ targets prog[pc] pc, t < prog.length

instance (prog : List SockFilter) : Decidable (Closed prog) :=
  inferInstanceAs (Decidable (_ ∧ _))

variable {load : BitVec 32 → Option (BitVec 32)} {len : BitVec 32} {prog : List SockFilter}

theorem store_next {i : SockFilter} {r r' : Regs} {v : BitVec 32} {off : Nat}
    (h : store i r v = .next off r') : off = 0 := by
  unfold store at h
  split at h
  · injection h with h
    exact h.symm
  · cases h

theorem elim_next {o : Option (BitVec 32)} {e : Effect} {f : BitVec 32 → Regs} {r' : Regs}
    {off : Nat} (he : ∀ n r, e ≠ .next n r)
    (h : (o.elim e fun v => .next 0 (f v)) = .next off r') : off = 0 := by
  cases o with
  | none => exact absurd h (he _ _)
  | some v =>
    injection h with h
    exact h.symm

/-- The program counter goes to one of the targets of the instruction. -/
theorem mem_targets_of_effect {i : SockFilter} {r r' : Regs} {off : Nat} (pc : Nat)
    (h : effect load len i r = .next off r') : pc + 1 + off ∈ targets i pc := by
  have hline {c : BitVec 16} (hc : i.cls = c) (hret : c ≠ BPF_RET) (hjmp : c ≠ BPF_JMP)
      (h0 : off = 0) : pc + 1 + off ∈ targets i pc := by
    simp [targets, hc, hret, hjmp, h0]
  unfold effect at h
  split at h
  case h_1 hc => exact hline hc (by decide) (by decide) (elim_next (by simp) h)
  case h_2 hc => exact hline hc (by decide) (by decide) (elim_next (by simp) h)
  case h_3 hc => exact hline hc (by decide) (by decide) (store_next h)
  case h_4 hc => exact hline hc (by decide) (by decide) (store_next h)
  case h_5 hc => exact hline hc (by decide) (by decide) (elim_next (by simp) h)
  case h_6 hc =>
    have hret : i.cls ≠ BPF_RET := by rw [hc]; decide
    rw [targets, if_neg hret, if_pos (show i.cls = BPF_JMP from hc)]
    split at h
    · next hop => injection h with h; simp [hop, h]
    · next hop =>
      split at h <;> (injection h with h; simp [hop, h])
  case h_7 => cases h
  case h_8 h0 h1 h2 h3 h4 h5 h6 =>
    have h0 : off = 0 := by
      split at h <;> (injection h with h; exact h.symm)
    exact hline rfl h6 h5 h0

/-- A closed program is never left. -/
theorem Closed.pc_lt (hp : Closed prog) {s : State}
    (h : (machine load len prog).Reachable init s) : s.pc < prog.length := by
  refine h.invariant (P := fun s => s.pc < prog.length) hp.1 fun s _ t hs _ hn => ?_
  obtain ⟨i, hi, hn⟩ := Option.bind_eq_some_iff.mp hn
  obtain ⟨_, rfl⟩ := List.getElem?_eq_some_iff.mp hi
  split at hn
  · next off r he =>
    cases hn
    exact hp.2 s.pc hs _ (mem_targets_of_effect s.pc he)
  · cases hn

@[simp] theorem exec_nil (off : Nat) (r : Regs) : exec load len [] off r = none := by
  cases off <;> rfl

@[simp] theorem exec_cons_succ (i : SockFilter) (is : List SockFilter) (off : Nat) (r : Regs) :
    exec load len (i :: is) (off + 1) r = exec load len is off r := rfl

/-- Jumping over instructions is dropping them. -/
theorem exec_drop (is : List SockFilter) (off : Nat) (r : Regs) :
    exec load len is off r = exec load len (is.drop off) 0 r := by
  induction is generalizing off with
  | nil => simp
  | cons i is ih =>
    cases off with
    | zero => rfl
    | succ off => exact ih off

/-- The instructions ahead of the program counter determine the value of the program. -/
theorem run_eq_exec {n pc : Nat} (h : prog.length ≤ pc + n) (r : Regs) :
    run load len prog n ⟨pc, r⟩ = exec load len (prog.drop pc) 0 r := by
  induction n generalizing pc r with
  | zero =>
    rw [List.drop_eq_nil_of_le (by omega), exec_nil]
    rfl
  | succ n ih =>
    rw [run]
    cases hi : prog[pc]? with
    | none =>
      rw [List.drop_eq_nil_of_le (List.getElem?_eq_none_iff.mp hi), exec_nil]
      rfl
    | some i =>
      obtain ⟨hlt, rfl⟩ := List.getElem?_eq_some_iff.mp hi
      rw [List.drop_eq_getElem_cons hlt, exec, Option.bind_some]
      cases effect load len prog[pc] r with
      | next off r' =>
        simp only
        rw [ih (by omega), exec_drop (prog.drop (pc + 1)), List.drop_drop]
      | ret v => rfl
      | fault => rfl

/-! ### The instructions one by one -/

section
variable (is : List SockFilter) (r : Regs) (k : BitVec 32) (jt jf : BitVec 8)

theorem exec_ld_abs : exec load len (stmt (BPF_LD ||| BPF_W ||| BPF_ABS) k :: is) 0 r =
    (load k).elim none fun v => exec load len is 0 { r with a := v } := by
  cases h : load k <;> simp [exec, effect, fetch, stmt, SockFilter.cls, SockFilter.size,
    SockFilter.mode, BPF_LD, BPF_W, BPF_ABS, h]

theorem exec_ret : exec load len (stmt (BPF_RET ||| BPF_K) k :: is) 0 r = some k := by
  simp [exec, effect, stmt, operand, SockFilter.cls, BPF_RET, BPF_K, BPF_X, BPF_A]

theorem exec_ja : exec load len (jump (BPF_JMP ||| BPF_JA) k jt jf :: is) 0 r =
    exec load len is k.toNat r := by
  simp [exec, effect, jump, SockFilter.cls, SockFilter.op, BPF_JMP, BPF_JA]

/-- A conditional jump that compares with its constant. -/
theorem effect_cond {c : BitVec 16} {p : Prop} [Decidable p] (hc : c &&& 0x07 = BPF_JMP)
    (ho : c &&& 0xf0 ≠ BPF_JA) (hk : c &&& BPF_X = 0)
    (ht : test (c &&& 0xf0) r.a k = decide p) : effect load len (jump c k jt jf) r =
      .next (if p then jt.toNat else jf.toNat) r := by
  have he : effect load len (jump c k jt jf) r =
      if decide p then .next jt.toNat r else .next jf.toNat r := by
    simp only [effect, jump, SockFilter.cls, SockFilter.op, operand, hc, hk, ht, if_neg ho, if_true]
    rfl
  rw [he]
  by_cases hp : p <;> simp [hp]

theorem exec_cond {c : BitVec 16} {p : Prop} [Decidable p] (hc : c &&& 0x07 = BPF_JMP)
    (ho : c &&& 0xf0 ≠ BPF_JA) (hk : c &&& BPF_X = 0)
    (ht : test (c &&& 0xf0) r.a k = decide p) : exec load len (jump c k jt jf :: is) 0 r =
      if p then exec load len is jt.toNat r else exec load len is jf.toNat r := by
  rw [exec, effect_cond r k jt jf hc ho hk ht]
  by_cases hp : p <;> simp [hp]

theorem exec_jeq : exec load len (jump (BPF_JMP ||| BPF_JEQ ||| BPF_K) k jt jf :: is) 0 r =
    if r.a = k then exec load len is jt.toNat r else exec load len is jf.toNat r :=
  exec_cond is r k jt jf (by decide) (by decide) (by decide) rfl

/-- Where the test for equality at the program counter leads. -/
theorem next_jeq {s : State} {k : BitVec 32} {jt jf : BitVec 8}
    (h : prog[s.pc]? = some (jump (BPF_JMP ||| BPF_JEQ ||| BPF_K) k jt jf)) :
    (machine load len prog).next s () =
      some ⟨s.pc + 1 + if s.r.a = k then jt.toNat else jf.toNat, s.r⟩ := by
  simp only [machine, h, Option.bind_some]
  rw [effect_cond s.r k jt jf (p := s.r.a = k) (by decide) (by decide) (by decide) rfl]

theorem exec_jgt : exec load len (jump (BPF_JMP ||| BPF_JGT ||| BPF_K) k jt jf :: is) 0 r =
    if k < r.a then exec load len is jt.toNat r else exec load len is jf.toNat r :=
  exec_cond is r k jt jf (by decide) (by decide) (by decide) rfl

theorem exec_jge : exec load len (jump (BPF_JMP ||| BPF_JGE ||| BPF_K) k jt jf :: is) 0 r =
    if k ≤ r.a then exec load len is jt.toNat r else exec load len is jf.toNat r :=
  exec_cond is r k jt jf (by decide) (by decide) (by decide) rfl

theorem exec_jset : exec load len (jump (BPF_JMP ||| BPF_JSET ||| BPF_K) k jt jf :: is) 0 r =
    if r.a &&& k ≠ 0 then exec load len is jt.toNat r else exec load len is jf.toNat r :=
  exec_cond is r k jt jf (by decide) (by decide) (by decide) rfl
end

end Tlpi.Bpf
