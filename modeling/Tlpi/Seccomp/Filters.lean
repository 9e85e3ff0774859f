import Mathlib.Data.Fintype.Basic
import Mathlib.Tactic.FinCases
import Mathlib.Tactic.SplitIfs
import Tlpi.Lib.Bpf

/-!
# Three BPF filters (`seccomp/seccomp_control_open.c`, `seccomp/seccomp_arg64.c`,
`seccomp/seccomp_multiarch.c`)

The program that each `install_filter` gives to `seccomp`, instruction by instruction, and the
value that it returns to the kernel for every system call.
-/

namespace Tlpi.Seccomp

open Bpf

/-- `struct seccomp_data`. -/
structure SeccompData where
  nr : BitVec 32
  arch : BitVec 32
  instructionPointer : BitVec 64
  args : Fin 6 → BitVec 64

/-- The less significant half of a 64-bit field. -/
def low (w : BitVec 64) : BitVec 32 := w.setWidth 32

/-- The more significant half of a 64-bit field. -/
def high (w : BitVec 64) : BitVec 32 := (w >>> 32).setWidth 32

namespace SeccompData

def offsetofNr : BitVec 32 := 0
def offsetofArch : BitVec 32 := 4
def offsetofArgs (i : Fin 6) : BitVec 32 := 16 + 8 * BitVec.ofNat 32 i

/-- The structure as 32-bit words, on a little-endian architecture. -/
def words (d : SeccompData) : List (BitVec 32) :=
  [d.nr, d.arch, low d.instructionPointer, high d.instructionPointer,
    low (d.args 0), high (d.args 0), low (d.args 1), high (d.args 1),
    low (d.args 2), high (d.args 2), low (d.args 3), high (d.args 3),
    low (d.args 4), high (d.args 4), low (d.args 5), high (d.args 5)]

def sizeof : BitVec 32 := 64

/-- A load is refused unless it is aligned and within the structure. -/
def load (d : SeccompData) (k : BitVec 32) : Option (BitVec 32) :=
  if k &&& 3 = 0 then d.words[k.toNat / 4]? else none

@[simp] theorem load_nr (d : SeccompData) : d.load offsetofNr = some d.nr := rfl

@[simp] theorem load_arch (d : SeccompData) : d.load offsetofArch = some d.arch := rfl

@[simp] theorem load_args (d : SeccompData) (i : Fin 6) :
    d.load (offsetofArgs i) = some (low (d.args i)) := by
  fin_cases i <;> rfl

@[simp] theorem load_args_high (d : SeccompData) (i : Fin 6) :
    d.load (offsetofArgs i + 4) = some (high (d.args i)) := by
  fin_cases i <;> rfl

end SeccompData

def AUDIT_ARCH_X86_64 : BitVec 32 := 0xC000003E
def AUDIT_ARCH_I386 : BitVec 32 := 0x40000003

def X32_SYSCALL_BIT : BitVec 32 := 0x40000000

def SECCOMP_RET_KILL_PROCESS : BitVec 32 := 0x80000000
def SECCOMP_RET_ERRNO : BitVec 32 := 0x00050000
def SECCOMP_RET_ALLOW : BitVec 32 := 0x7fff0000

def NR_open : BitVec 32 := 2
def NR_lseek : BitVec 32 := 8
def NR_openat : BitVec 32 := 257

def NR_mq_notify_x86_64 : BitVec 32 := 244
def NR_mq_notify_i386 : BitVec 32 := 281
def NR_mq_notify_x32 : BitVec 32 := 527

def O_WRONLY : BitVec 32 := 1
def O_RDWR : BitVec 32 := 2
def O_CREAT : BitVec 32 := 0x40

def ENOTSUP : BitVec 32 := 95

/-- The value that a filter returns for a system call; a filter has at most as many steps as
instructions. -/
def verdict (filter : List SockFilter) (d : SeccompData) : Option (BitVec 32) :=
  run d.load SeccompData.sizeof filter filter.length init

/-- In every state that the filter goes through, the program counter is at one of its
instructions. -/
def StaysWithin (filter : List SockFilter) (d : SeccompData) : Prop :=
  ∀ s, (machine d.load SeccompData.sizeof filter).Reachable init s → s.pc < filter.length

/-- The filter of `seccomp_control_open.c`. -/
def controlOpen : List SockFilter := [
  stmt (BPF_LD ||| BPF_W ||| BPF_ABS) SeccompData.offsetofArch,
  jump (BPF_JMP ||| BPF_JEQ ||| BPF_K) AUDIT_ARCH_X86_64 0 2,
  stmt (BPF_LD ||| BPF_W ||| BPF_ABS) SeccompData.offsetofNr,
  jump (BPF_JMP ||| BPF_JGE ||| BPF_K) X32_SYSCALL_BIT 0 1,
  stmt (BPF_RET ||| BPF_K) SECCOMP_RET_KILL_PROCESS,
  jump (BPF_JMP ||| BPF_JEQ ||| BPF_K) NR_open 2 0,
  jump (BPF_JMP ||| BPF_JEQ ||| BPF_K) NR_openat 3 0,
  stmt (BPF_RET ||| BPF_K) SECCOMP_RET_ALLOW,
  stmt (BPF_LD ||| BPF_W ||| BPF_ABS) (SeccompData.offsetofArgs 1),
  jump (BPF_JMP ||| BPF_JA) 1 0 0,
  stmt (BPF_LD ||| BPF_W ||| BPF_ABS) (SeccompData.offsetofArgs 2),
  jump (BPF_JMP ||| BPF_JSET ||| BPF_K) O_CREAT 0 1,
  stmt (BPF_RET ||| BPF_K) SECCOMP_RET_KILL_PROCESS,
  jump (BPF_JMP ||| BPF_JSET ||| BPF_K) (O_WRONLY ||| O_RDWR) 0 1,
  stmt (BPF_RET ||| BPF_K) (SECCOMP_RET_ERRNO ||| ENOTSUP),
  stmt (BPF_RET ||| BPF_K) SECCOMP_RET_ALLOW]

/-- The filter of `seccomp_arg64.c`. -/
def arg64 : List SockFilter := [
  stmt (BPF_LD ||| BPF_W ||| BPF_ABS) SeccompData.offsetofArch,
  jump (BPF_JMP ||| BPF_JEQ ||| BPF_K) AUDIT_ARCH_X86_64 0 2,
  stmt (BPF_LD ||| BPF_W ||| BPF_ABS) SeccompData.offsetofNr,
  jump (BPF_JMP ||| BPF_JGE ||| BPF_K) X32_SYSCALL_BIT 0 1,
  stmt (BPF_RET ||| BPF_K) SECCOMP_RET_KILL_PROCESS,
  jump (BPF_JMP ||| BPF_JEQ ||| BPF_K) NR_lseek 1 0,
  stmt (BPF_RET ||| BPF_K) SECCOMP_RET_ALLOW,
  -- `sizeof(__u32)` is 4
  stmt (BPF_LD ||| BPF_W ||| BPF_ABS) (SeccompData.offsetofArgs 1 + 4),
  jump (BPF_JMP ||| BPF_JEQ ||| BPF_K) 0 1 0,
  stmt (BPF_RET ||| BPF_K) (SECCOMP_RET_ERRNO ||| 2),
  stmt (BPF_LD ||| BPF_W ||| BPF_ABS) (SeccompData.offsetofArgs 1),
  jump (BPF_JMP ||| BPF_JGT ||| BPF_K) 1000 0 1,
  stmt (BPF_RET ||| BPF_K) (SECCOMP_RET_ERRNO ||| 1),
  stmt (BPF_RET ||| BPF_K) SECCOMP_RET_ALLOW]

/-- The filter of `seccomp_multiarch.c`. -/
def multiarch : List SockFilter := [
  stmt (BPF_LD ||| BPF_W ||| BPF_ABS) SeccompData.offsetofArch,
  jump (BPF_JMP ||| BPF_JEQ ||| BPF_K) AUDIT_ARCH_X86_64 0 5,
  stmt (BPF_LD ||| BPF_W ||| BPF_ABS) SeccompData.offsetofNr,
  jump (BPF_JMP ||| BPF_JEQ ||| BPF_K) NR_mq_notify_x86_64 0 1,
  stmt (BPF_RET ||| BPF_K) (SECCOMP_RET_ERRNO ||| NR_mq_notify_x86_64),
  jump (BPF_JMP ||| BPF_JEQ ||| BPF_K) (NR_mq_notify_x32 + X32_SYSCALL_BIT) 0 5,
  stmt (BPF_RET ||| BPF_K) (SECCOMP_RET_ERRNO ||| NR_mq_notify_x32),
  jump (BPF_JMP ||| BPF_JEQ ||| BPF_K) AUDIT_ARCH_I386 0 4,
  stmt (BPF_LD ||| BPF_W ||| BPF_ABS) SeccompData.offsetofNr,
  jump (BPF_JMP ||| BPF_JEQ ||| BPF_K) NR_mq_notify_i386 0 1,
  stmt (BPF_RET ||| BPF_K) (SECCOMP_RET_ERRNO ||| NR_mq_notify_i386),
  stmt (BPF_RET ||| BPF_K) SECCOMP_RET_ALLOW,
  stmt (BPF_RET ||| BPF_K) SECCOMP_RET_KILL_PROCESS]

/-- A filter's value is that of its instructions, executed from the first. -/
theorem verdict_eq_exec (filter : List SockFilter) (d : SeccompData) :
    verdict filter d = exec d.load SeccompData.sizeof filter 0 init.r := by
  rw [verdict, init, run_eq_exec (Nat.le_add_left _ _), List.drop_zero]

/-- The part of the filter of `seccomp_control_open.c` that looks at the flags. -/
def processFlags (flags : BitVec 32) : BitVec 32 :=
  if flags &&& O_CREAT ≠ 0 then SECCOMP_RET_KILL_PROCESS
  else if flags &&& (O_WRONLY ||| O_RDWR) ≠ 0 then SECCOMP_RET_ERRNO ||| ENOTSUP
  else SECCOMP_RET_ALLOW

theorem controlOpen_verdict (d : SeccompData) : verdict controlOpen d =
    some (if d.arch = AUDIT_ARCH_X86_64 then
      if X32_SYSCALL_BIT ≤ d.nr then SECCOMP_RET_KILL_PROCESS
      else if d.nr = NR_open then processFlags (low (d.args 1))
      else if d.nr = NR_openat then processFlags (low (d.args 2))
      else SECCOMP_RET_ALLOW
    else SECCOMP_RET_KILL_PROCESS) := by
  rw [verdict_eq_exec, controlOpen]
  simp only [exec_ld_abs, exec_jeq, exec_jge, exec_jset, exec_ja, exec_ret, exec_cons_succ,
    SeccompData.load_nr, SeccompData.load_arch, SeccompData.load_args, Option.elim_some,
    BitVec.reduceToNat, processFlags, apply_ite some]

theorem arg64_verdict (d : SeccompData) : verdict arg64 d =
    some (if d.arch = AUDIT_ARCH_X86_64 then
      if X32_SYSCALL_BIT ≤ d.nr then SECCOMP_RET_KILL_PROCESS
      else if d.nr = NR_lseek then
        if high (d.args 1) = 0 then
          if 1000 < low (d.args 1) then SECCOMP_RET_ERRNO ||| 1 else SECCOMP_RET_ALLOW
        else SECCOMP_RET_ERRNO ||| 2
      else SECCOMP_RET_ALLOW
    else SECCOMP_RET_KILL_PROCESS) := by
  rw [verdict_eq_exec, arg64]
  simp only [exec_ld_abs, exec_jeq, exec_jge, exec_jgt, exec_ret, exec_cons_succ,
    SeccompData.load_nr, SeccompData.load_arch, SeccompData.load_args, SeccompData.load_args_high,
    Option.elim_some, BitVec.reduceToNat, apply_ite some]

theorem multiarch_verdict (d : SeccompData) : verdict multiarch d =
    some (if d.arch = AUDIT_ARCH_X86_64 then
      if d.nr = NR_mq_notify_x86_64 then SECCOMP_RET_ERRNO ||| NR_mq_notify_x86_64
      else if d.nr = NR_mq_notify_x32 + X32_SYSCALL_BIT then SECCOMP_RET_ERRNO ||| NR_mq_notify_x32
      else SECCOMP_RET_ALLOW
    else if d.arch = AUDIT_ARCH_I386 then
      if d.nr = NR_mq_notify_i386 then SECCOMP_RET_ERRNO ||| NR_mq_notify_i386
      else SECCOMP_RET_ALLOW
    else SECCOMP_RET_KILL_PROCESS) := by
  rw [verdict_eq_exec, multiarch]
  simp only [exec_ld_abs, exec_jeq, exec_ret, exec_cons_succ, SeccompData.load_nr,
    SeccompData.load_arch, Option.elim_some, BitVec.reduceToNat, apply_ite some]

theorem controlOpen_closed : Closed controlOpen := by decide

theorem arg64_closed : Closed arg64 := by decide

theorem multiarch_closed : Closed multiarch := by decide

/-- A filter that no instruction leads out of is never left. -/
theorem staysWithin_of_closed {filter : List SockFilter} (h : Closed filter) (d : SeccompData) :
    StaysWithin filter d := fun _ hs => h.pc_lt hs

/-- A 64-bit number is at most 1000 exactly when its high half is zero and its low half at most
1000. -/
theorem toNat_le_iff (w : BitVec 64) :
    w.toNat ≤ 1000 ↔ high w = 0 ∧ ¬ 1000 < low w := by
  have hw := w.isLt
  rw [← BitVec.toNat_inj, BitVec.lt_def]
  simp only [high, low, BitVec.toNat_setWidth, BitVec.toNat_ushiftRight, BitVec.reduceToNat,
    Nat.shiftRight_eq_div_pow]
  omega

/-- The filter of `seccomp_control_open.c` on every system call. -/
theorem controlOpen_spec (d : SeccompData) :
    StaysWithin controlOpen d ∧ verdict controlOpen d = some (
      if d.arch ≠ AUDIT_ARCH_X86_64 ∨ X32_SYSCALL_BIT ≤ d.nr then SECCOMP_RET_KILL_PROCESS
      else if d.nr ≠ NR_open ∧ d.nr ≠ NR_openat then SECCOMP_RET_ALLOW
      else
        let flags := low (if d.nr = NR_open then d.args 1 else d.args 2)
        if flags &&& O_CREAT ≠ 0 then SECCOMP_RET_KILL_PROCESS
        else if flags &&& (O_WRONLY ||| O_RDWR) ≠ 0 then SECCOMP_RET_ERRNO ||| ENOTSUP
        else SECCOMP_RET_ALLOW) := by
  refine ⟨staysWithin_of_closed controlOpen_closed d, ?_⟩
  rw [controlOpen_verdict]
  congr 1
  by_cases hkill : d.arch ≠ AUDIT_ARCH_X86_64 ∨ X32_SYSCALL_BIT ≤ d.nr
  · rw [if_pos hkill]
    rcases hkill with harch | hx32
    · rw [if_neg harch]
    · rw [if_pos hx32, ite_self]
  · obtain ⟨harch, hx32⟩ := not_or.mp hkill
    rw [if_neg hkill, if_pos (not_not.mp harch), if_neg hx32]
    by_cases hopen : d.nr = NR_open
    · simp [hopen, processFlags]
    · by_cases hopenat : d.nr = NR_openat
      · simp [hopenat, processFlags, NR_open, NR_openat]
      · simp [hopen, hopenat]

/-- The filter of `seccomp_arg64.c` on every system call: it compares a 64-bit offset. -/
theorem arg64_spec (d : SeccompData) :
    Closed arg64 ∧ StaysWithin arg64 d ∧
    (d.arch ≠ AUDIT_ARCH_X86_64 ∨ X32_SYSCALL_BIT ≤ d.nr →
      verdict arg64 d = some SECCOMP_RET_KILL_PROCESS) ∧
    (¬(d.arch ≠ AUDIT_ARCH_X86_64 ∨ X32_SYSCALL_BIT ≤ d.nr) → d.nr ≠ NR_lseek →
      verdict arg64 d = some SECCOMP_RET_ALLOW) ∧
    (¬(d.arch ≠ AUDIT_ARCH_X86_64 ∨ X32_SYSCALL_BIT ≤ d.nr) → d.nr = NR_lseek →
      (verdict arg64 d = some SECCOMP_RET_ALLOW ↔ (d.args 1).toNat ≤ 1000) ∧
      (high (d.args 1) ≠ 0 → verdict arg64 d = some (SECCOMP_RET_ERRNO ||| 2)) ∧
      (high (d.args 1) = 0 → 1000 < low (d.args 1) →
        verdict arg64 d = some (SECCOMP_RET_ERRNO ||| 1))) := by
  rw [toNat_le_iff, arg64_verdict]
  refine ⟨arg64_closed, staysWithin_of_closed arg64_closed d, ?_, ?_, ?_⟩
  · rintro (harch | hx32)
    · rw [if_neg harch]
    · rw [if_pos hx32, ite_self]
  · intro h hnr
    obtain ⟨harch, hx32⟩ := not_or.mp h
    rw [if_pos (not_not.mp harch), if_neg hx32, if_neg hnr]
  · intro h hnr
    obtain ⟨harch, hx32⟩ := not_or.mp h
    rw [if_pos (not_not.mp harch), if_neg hx32, if_pos hnr]
    refine ⟨?_, fun hh => by rw [if_neg hh], fun hh hl => by rw [if_pos hh, if_pos hl]⟩
    by_cases hh : high (d.args 1) = 0
    · by_cases hl : 1000 < low (d.args 1)
      · rw [if_pos hh, if_pos hl]
        exact ⟨fun h => absurd h (by decide), fun h => absurd hl h.2⟩
      · rw [if_pos hh, if_neg hl]
        exact ⟨fun _ => ⟨hh, hl⟩, fun _ => rfl⟩
    · rw [if_neg hh]
      exact ⟨fun h => absurd h (by decide), fun h => absurd h.1 hh⟩

/-- A jump as a comment describes it: the test at `pc` compares the accumulator with `k` and leads
to the instruction `ins` at `yes` if they are equal, and to `els` at `no` otherwise. -/
structure Jump where
  pc : Nat
  k : BitVec 32
  yes : Nat
  ins : SockFilter
  no : Nat
  els : SockFilter
  deriving DecidableEq

/-- The filter goes the way that the comment says, from every state at the test. -/
def Jump.InFilter (j : Jump) (filter : List SockFilter) : Prop :=
  filter[j.yes]? = some j.ins ∧ filter[j.no]? = some j.els ∧ ∀ (d : SeccompData) (r : Regs),
    (machine d.load SeccompData.sizeof filter).next ⟨j.pc, r⟩ () =
      some ⟨if r.a = j.k then j.yes else j.no, r⟩

/-- The comments of `seccomp_multiarch.c`: which architecture or system call each test is for, and
where it jumps forward to if it is another one. -/
def multiarchJumps : List Jump := [
  ⟨1, AUDIT_ARCH_X86_64, 2, stmt (BPF_LD ||| BPF_W ||| BPF_ABS) SeccompData.offsetofNr,
    7, jump (BPF_JMP ||| BPF_JEQ ||| BPF_K) AUDIT_ARCH_I386 0 4⟩,
  ⟨3, 244, 4, stmt (BPF_RET ||| BPF_K) (SECCOMP_RET_ERRNO ||| 244),
    5, jump (BPF_JMP ||| BPF_JEQ ||| BPF_K) (527 + X32_SYSCALL_BIT) 0 5⟩,
  ⟨5, 527 + X32_SYSCALL_BIT, 6, stmt (BPF_RET ||| BPF_K) (SECCOMP_RET_ERRNO ||| 527),
    11, stmt (BPF_RET ||| BPF_K) SECCOMP_RET_ALLOW⟩,
  ⟨7, AUDIT_ARCH_I386, 8, stmt (BPF_LD ||| BPF_W ||| BPF_ABS) SeccompData.offsetofNr,
    12, stmt (BPF_RET ||| BPF_K) SECCOMP_RET_KILL_PROCESS⟩,
  ⟨9, 281, 10, stmt (BPF_RET ||| BPF_K) (SECCOMP_RET_ERRNO ||| 281),
    11, stmt (BPF_RET ||| BPF_K) SECCOMP_RET_ALLOW⟩]

/-- A test for equality in the filter goes the way that its offsets give. -/
theorem Jump.inFilter {j : Jump} {filter : List SockFilter} {jt jf : BitVec 8}
    (hpc : filter[j.pc]? = some (jump (BPF_JMP ||| BPF_JEQ ||| BPF_K) j.k jt jf))
    (hyes : j.yes = j.pc + 1 + jt.toNat) (hno : j.no = j.pc + 1 + jf.toNat)
    (hins : filter[j.yes]? = some j.ins) (hels : filter[j.no]? = some j.els) :
    j.InFilter filter := by
  refine ⟨hins, hels, fun d r => ?_⟩
  rw [next_jeq hpc, hyes, hno]
  simp only [apply_ite]

theorem multiarchJumps_inFilter : ∀ j ∈ multiarchJumps, j.InFilter multiarch := by
  intro j hj
  have hj' : j ∈ multiarchJumps ∧
      multiarch[j.pc]? = some (jump (BPF_JMP ||| BPF_JEQ ||| BPF_K) j.k 0
        (BitVec.ofNat 8 (j.no - j.pc - 1))) ∧
      j.yes = j.pc + 1 + 0 ∧ j.no = j.pc + 1 + (BitVec.ofNat 8 (j.no - j.pc - 1)).toNat ∧
      multiarch[j.yes]? = some j.ins ∧ multiarch[j.no]? = some j.els := by
    revert j
    decide
  obtain ⟨-, hpc, hyes, hno, hins, hels⟩ := hj'
  exact Jump.inFilter hpc hyes hno hins hels

theorem multiarch_jump_mem (pc : Nat) (i : SockFilter) (hi : multiarch[pc]? = some i)
    (hc : i.cls = BPF_JMP) : ∃ j ∈ multiarchJumps, j.pc = pc := by
  obtain ⟨hlt, rfl⟩ := List.getElem?_eq_some_iff.mp hi
  revert pc
  decide

/-- The filter of `seccomp_multiarch.c` on every system call, and where its jumps lead. -/
theorem multiarch_spec (d : SeccompData) :
    (verdict multiarch d = some (SECCOMP_RET_ERRNO ||| 244) ↔
      d.arch = AUDIT_ARCH_X86_64 ∧ d.nr = 244) ∧
    (verdict multiarch d = some (SECCOMP_RET_ERRNO ||| 527) ↔
      d.arch = AUDIT_ARCH_X86_64 ∧ d.nr = 0x40000000 + 527) ∧
    (verdict multiarch d = some (SECCOMP_RET_ERRNO ||| 281) ↔
      d.arch = AUDIT_ARCH_I386 ∧ d.nr = 281) ∧
    (verdict multiarch d = some SECCOMP_RET_KILL_PROCESS ↔
      d.arch ≠ AUDIT_ARCH_X86_64 ∧ d.arch ≠ AUDIT_ARCH_I386) ∧
    (verdict multiarch d = some SECCOMP_RET_ALLOW ↔
      d.arch = AUDIT_ARCH_X86_64 ∧ d.nr ≠ 244 ∧ d.nr ≠ 0x40000000 + 527 ∨
      d.arch = AUDIT_ARCH_I386 ∧ d.nr ≠ 281) ∧
    (∀ j ∈ multiarchJumps, j.InFilter multiarch) ∧
    (∀ pc i, multiarch[pc]? = some i → i.cls = BPF_JMP → ∃ j ∈ multiarchJumps, j.pc = pc) ∧
    Closed multiarch ∧ StaysWithin multiarch d := by
  simp only [← and_assoc]
  refine ⟨⟨⟨⟨?_, multiarchJumps_inFilter⟩, multiarch_jump_mem⟩, multiarch_closed⟩,
    staysWithin_of_closed multiarch_closed d⟩
  rw [multiarch_verdict]
  simp only [NR_mq_notify_x86_64, NR_mq_notify_x32, NR_mq_notify_i386, X32_SYSCALL_BIT,
    AUDIT_ARCH_X86_64, AUDIT_ARCH_I386, SECCOMP_RET_ERRNO, SECCOMP_RET_ALLOW,
    SECCOMP_RET_KILL_PROCESS]
  by_cases h64 : d.arch = 0xC000003E#32
  · by_cases h244 : d.nr = 244#32
    · simp [h64, h244]
    · by_cases h527 : d.nr = 0x4000020F#32
      · simp [h64, h527]
      · simp [h64, h244, h527]
  · by_cases h386 : d.arch = 0x40000003#32
    · by_cases h281 : d.nr = 281#32
      · simp [h386, h281]
      · simp [h386, h281]
    · simp [h64, h386]

end Tlpi.Seccomp
