import Mathlib.Data.Int.Order.Basic
import Tlpi.Seccomp.Filters

/-!
# Filters on top of each other (`seccomp/seccomp_user_notification.c` and its neighbours)

Most filters start with the same test of the architecture and of the x32 bit. The kernel runs all
filters of a process for every system call, the latest one first, and takes the strictest action.
-/

namespace Tlpi.Seccomp

open Bpf

def SECCOMP_RET_KILL : BitVec 32 := 0x00000000
def SECCOMP_RET_TRAP : BitVec 32 := 0x00030000
def SECCOMP_RET_USER_NOTIF : BitVec 32 := 0x7fc00000
def SECCOMP_RET_TRACE : BitVec 32 := 0x7ff00000
def SECCOMP_RET_LOG : BitVec 32 := 0x7ffc0000
def SECCOMP_RET_ACTION_FULL : BitVec 32 := 0xffff0000

def NR_mkdir : BitVec 32 := 83
def NR_getppid : BitVec 32 := 110

/-! ### The filters -/

/-- `X86_64_CHECK_ARCH_AND_LOAD_SYSCALL_NR`. -/
def checkArchAndLoadSyscallNr : List SockFilter := [
  stmt (BPF_LD ||| BPF_W ||| BPF_ABS) SeccompData.offsetofArch,
  jump (BPF_JMP ||| BPF_JEQ ||| BPF_K) AUDIT_ARCH_X86_64 0 2,
  stmt (BPF_LD ||| BPF_W ||| BPF_ABS) SeccompData.offsetofNr,
  jump (BPF_JMP ||| BPF_JGE ||| BPF_K) X32_SYSCALL_BIT 0 1,
  stmt (BPF_RET ||| BPF_K) SECCOMP_RET_KILL_PROCESS]

/-- The filter of `installNotifyFilter`. -/
def notifyFilter : List SockFilter := checkArchAndLoadSyscallNr ++ [
  jump (BPF_JMP ||| BPF_JEQ ||| BPF_K) NR_mkdir 0 1,
  stmt (BPF_RET + BPF_K) SECCOMP_RET_USER_NOTIF,
  stmt (BPF_RET ||| BPF_K) SECCOMP_RET_ALLOW]

/-- The filter of `installFilter2`: its last entry is replaced according to the option. -/
def filter2 (secondFilter : BitVec 32) : List SockFilter :=
  let filter := checkArchAndLoadSyscallNr ++ [
    jump (BPF_JMP ||| BPF_JEQ ||| BPF_K) NR_mkdir 1 0,
    stmt (BPF_RET ||| BPF_K) SECCOMP_RET_ALLOW,
    ⟨0, 0, 0, 0⟩]
  let retTrace := stmt (BPF_RET + BPF_K) SECCOMP_RET_TRACE
  let retErrno := stmt (BPF_RET + BPF_K) (SECCOMP_RET_ERRNO ||| ENOTSUP)
  filter.set (filter.length - 1) (if secondFilter = SECCOMP_RET_ERRNO then retErrno else retTrace)

/-- The filter of `seccomp_logging.c`. -/
def logging : List SockFilter := checkArchAndLoadSyscallNr ++ [
  stmt (BPF_RET ||| BPF_K) SECCOMP_RET_LOG]

/-- The filter of `seccomp_perf.c`. -/
def perf : List SockFilter := checkArchAndLoadSyscallNr ++ [
  jump (BPF_JMP ||| BPF_JEQ ||| BPF_K) NR_open 1 0,
  stmt (BPF_RET ||| BPF_K) SECCOMP_RET_ALLOW,
  stmt (BPF_RET ||| BPF_K) SECCOMP_RET_KILL_PROCESS]

/-- The filter of `seccomp_deny_open.c`. -/
def denyOpen : List SockFilter := [
  stmt (BPF_LD ||| BPF_W ||| BPF_ABS) SeccompData.offsetofArch,
  jump (BPF_JMP ||| BPF_JEQ ||| BPF_K) AUDIT_ARCH_X86_64 1 0,
  stmt (BPF_RET ||| BPF_K) SECCOMP_RET_KILL_PROCESS,
  stmt (BPF_LD ||| BPF_W ||| BPF_ABS) SeccompData.offsetofNr,
  jump (BPF_JMP ||| BPF_JGE ||| BPF_K) X32_SYSCALL_BIT 0 1,
  stmt (BPF_RET ||| BPF_K) SECCOMP_RET_KILL_PROCESS,
  jump (BPF_JMP ||| BPF_JEQ ||| BPF_K) NR_open 2 0,
  jump (BPF_JMP ||| BPF_JEQ ||| BPF_K) NR_openat 1 0,
  stmt (BPF_RET ||| BPF_K) SECCOMP_RET_ALLOW,
  stmt (BPF_RET ||| BPF_K) SECCOMP_RET_KILL_PROCESS]

/-- The filter of `seccomp_trap_sigsys.c`. -/
def trapSigsys : List SockFilter := [
  stmt (BPF_LD ||| BPF_W ||| BPF_ABS) SeccompData.offsetofArch,
  jump (BPF_JMP ||| BPF_JEQ ||| BPF_K) AUDIT_ARCH_X86_64 1 0,
  stmt (BPF_RET ||| BPF_K) SECCOMP_RET_KILL,
  stmt (BPF_LD ||| BPF_W ||| BPF_ABS) SeccompData.offsetofNr,
  jump (BPF_JMP ||| BPF_JGE ||| BPF_K) X32_SYSCALL_BIT 0 1,
  stmt (BPF_RET ||| BPF_K) SECCOMP_RET_KILL_PROCESS,
  jump (BPF_JMP ||| BPF_JEQ ||| BPF_K) NR_getppid 0 1,
  stmt (BPF_RET ||| BPF_K) SECCOMP_RET_TRAP,
  stmt (BPF_RET ||| BPF_K) SECCOMP_RET_ALLOW]

/-- The filters of the target process with the option `-f` or without it, the latest first. -/
def installed : Option (BitVec 32) → List (List SockFilter)
  | none => [notifyFilter]
  | some secondFilter => [filter2 secondFilter, notifyFilter]

/-- The filters of the programs that kill for another architecture. -/
def filters : List (List SockFilter) :=
  [notifyFilter, filter2 SECCOMP_RET_ERRNO, filter2 SECCOMP_RET_TRACE, logging, perf, denyOpen,
    trapSigsys, controlOpen, arg64]

/-- The system calls that one of these filters names. -/
def named (f : List SockFilter) : List (BitVec 32) :=
  if f ∈ [notifyFilter, filter2 SECCOMP_RET_ERRNO, filter2 SECCOMP_RET_TRACE] then [NR_mkdir]
  else if f = perf then [NR_open]
  else if f ∈ [denyOpen, controlOpen] then [NR_open, NR_openat]
  else if f = trapSigsys then [NR_getppid]
  else if f = arg64 then [NR_lseek]
  else []

/-! ### The kernel -/

/-- How strict an action is: the smaller, the stricter. -/
def precedence (ret : BitVec 32) : Int := (ret &&& SECCOMP_RET_ACTION_FULL).toInt

/-- The first one of two actions unless the second is stricter. -/
def stricter (ret cur : BitVec 32) : BitVec 32 :=
  if precedence cur < precedence ret then cur else ret

/-- The action of all filters, the latest first, from an action that they start with. -/
def runFilters (d : SeccompData) (fs : List (List SockFilter)) (ret : BitVec 32) :
    Option (BitVec 32) :=
  fs.foldlM (fun ret f => (verdict f d).map (stricter ret)) ret

/-- No system call of x86-64. -/
def Foreign (d : SeccompData) : Prop := d.arch ≠ AUDIT_ARCH_X86_64 ∨ X32_SYSCALL_BIT ≤ d.nr

instance (d : SeccompData) : Decidable (Foreign d) := inferInstanceAs (Decidable (_ ∨ _))

variable {d : SeccompData} {f : List SockFilter} {fs fs' : List (List SockFilter)}
  {ret v v' : BitVec 32}

/-! ### What the filters do -/

/-- Behind the test of the architecture, a filter has the number of the system call in the
accumulator; other system calls do not come through. -/
theorem verdict_check (is : List SockFilter) (d : SeccompData) :
    verdict (checkArchAndLoadSyscallNr ++ is) d =
      if Foreign d then some SECCOMP_RET_KILL_PROCESS
      else exec d.load SeccompData.sizeof is 0 { init.r with a := d.nr } := by
  rw [verdict_eq_exec, checkArchAndLoadSyscallNr]
  simp only [List.cons_append, List.nil_append, exec_ld_abs, exec_jeq, exec_jge, exec_ret,
    exec_cons_succ, SeccompData.load_nr, SeccompData.load_arch, Option.elim_some,
    BitVec.reduceToNat, Foreign]
  by_cases harch : d.arch = AUDIT_ARCH_X86_64 <;> simp [harch]

theorem notifyFilter_verdict (d : SeccompData) : verdict notifyFilter d =
    some (if Foreign d then SECCOMP_RET_KILL_PROCESS
      else if d.nr = NR_mkdir then SECCOMP_RET_USER_NOTIF else SECCOMP_RET_ALLOW) := by
  have hret : BPF_RET + BPF_K = BPF_RET ||| BPF_K := rfl
  rw [notifyFilter, verdict_check, hret]
  simp only [exec_jeq, exec_ret, exec_cons_succ, BitVec.reduceToNat, apply_ite some]

theorem filter2_verdict (secondFilter : BitVec 32) (d : SeccompData) :
    verdict (filter2 secondFilter) d =
      some (if Foreign d then SECCOMP_RET_KILL_PROCESS
        else if d.nr = NR_mkdir then
          if secondFilter = SECCOMP_RET_ERRNO then SECCOMP_RET_ERRNO ||| ENOTSUP
          else SECCOMP_RET_TRACE
        else SECCOMP_RET_ALLOW) := by
  have hret : BPF_RET + BPF_K = BPF_RET ||| BPF_K := rfl
  have hfilter : filter2 secondFilter = checkArchAndLoadSyscallNr ++ [
      jump (BPF_JMP ||| BPF_JEQ ||| BPF_K) NR_mkdir 1 0, stmt (BPF_RET ||| BPF_K) SECCOMP_RET_ALLOW,
      stmt (BPF_RET + BPF_K) (if secondFilter = SECCOMP_RET_ERRNO then SECCOMP_RET_ERRNO ||| ENOTSUP
        else SECCOMP_RET_TRACE)] := by
    rw [apply_ite (stmt (BPF_RET + BPF_K))]
    rfl
  rw [hfilter, verdict_check, hret]
  simp only [exec_jeq, exec_ret, exec_cons_succ, BitVec.reduceToNat, apply_ite some]

theorem logging_verdict (d : SeccompData) : verdict logging d =
    some (if Foreign d then SECCOMP_RET_KILL_PROCESS else SECCOMP_RET_LOG) := by
  rw [logging, verdict_check]
  simp only [exec_ret, apply_ite some]

theorem perf_verdict (d : SeccompData) : verdict perf d =
    some (if Foreign d then SECCOMP_RET_KILL_PROCESS
      else if d.nr = NR_open then SECCOMP_RET_KILL_PROCESS else SECCOMP_RET_ALLOW) := by
  rw [perf, verdict_check]
  simp only [exec_jeq, exec_ret, exec_cons_succ, BitVec.reduceToNat, apply_ite some]

theorem denyOpen_verdict (d : SeccompData) : verdict denyOpen d =
    some (if Foreign d then SECCOMP_RET_KILL_PROCESS
      else if d.nr = NR_open ∨ d.nr = NR_openat then SECCOMP_RET_KILL_PROCESS
      else SECCOMP_RET_ALLOW) := by
  rw [verdict_eq_exec, denyOpen]
  simp only [exec_ld_abs, exec_jeq, exec_jge, exec_ret, exec_cons_succ, SeccompData.load_nr,
    SeccompData.load_arch, Option.elim_some, BitVec.reduceToNat, Foreign]
  by_cases harch : d.arch = AUDIT_ARCH_X86_64 <;> by_cases hopen : d.nr = NR_open <;>
    simp [harch, hopen, apply_ite some]

/-- This filter kills only the thread if the architecture is another one. -/
theorem trapSigsys_verdict (d : SeccompData) : verdict trapSigsys d =
    some (if d.arch ≠ AUDIT_ARCH_X86_64 then SECCOMP_RET_KILL
      else if X32_SYSCALL_BIT ≤ d.nr then SECCOMP_RET_KILL_PROCESS
      else if d.nr = NR_getppid then SECCOMP_RET_TRAP else SECCOMP_RET_ALLOW) := by
  rw [verdict_eq_exec, trapSigsys]
  simp only [exec_ld_abs, exec_jeq, exec_jge, exec_ret, exec_cons_succ, SeccompData.load_nr,
    SeccompData.load_arch, Option.elim_some, BitVec.reduceToNat, apply_ite some, ite_not]

/-! ### What the kernel does -/

theorem le_stricter_iff (b : Int) (ret cur : BitVec 32) :
    b ≤ precedence (stricter ret cur) ↔ b ≤ precedence ret ∧ b ≤ precedence cur := by
  unfold stricter
  split <;> omega

theorem stricter_eq (ret cur : BitVec 32) : stricter ret cur = ret ∨ stricter ret cur = cur := by
  unfold stricter
  split
  · exact .inr rfl
  · exact .inl rfl

theorem runFilters_nil (d : SeccompData) (ret : BitVec 32) : runFilters d [] ret = some ret := rfl

theorem runFilters_cons (d : SeccompData) (f : List SockFilter) (fs : List (List SockFilter))
    (ret : BitVec 32) : runFilters d (f :: fs) ret =
      (verdict f d).bind fun cur => runFilters d fs (stricter ret cur) := by
  cases h : verdict f d <;> simp [runFilters, h]

/-- All filters together are as strict as the strictest of them. -/
theorem le_runFilters_iff (h : runFilters d fs ret = some v) (b : Int) :
    b ≤ precedence v ↔
      b ≤ precedence ret ∧ ∀ f ∈ fs, ∀ u, verdict f d = some u → b ≤ precedence u := by
  induction fs generalizing ret with
  | nil =>
    cases h
    simp
  | cons f fs ih =>
    rw [runFilters_cons] at h
    obtain ⟨cur, hf, h⟩ := Option.bind_eq_some_iff.mp h
    rw [ih h, le_stricter_iff, List.forall_mem_cons, hf, and_assoc]
    simp

/-- The action is that of one of the filters. -/
theorem mem_of_runFilters (h : runFilters d fs ret = some v) :
    v = ret ∨ ∃ f ∈ fs, verdict f d = some v := by
  induction fs generalizing ret with
  | nil =>
    cases h
    exact .inl rfl
  | cons f fs ih =>
    rw [runFilters_cons] at h
    obtain ⟨cur, hf, h⟩ := Option.bind_eq_some_iff.mp h
    rcases ih h with rfl | ⟨g, hg, hv⟩
    · rcases stricter_eq ret cur with hret | hcur
      · exact .inl hret
      · exact .inr ⟨f, List.mem_cons_self, by rw [hf, hcur]⟩
    · exact .inr ⟨g, List.mem_cons_of_mem f hg, hv⟩

/-- A filter that returns for every system call does not keep the others from it. -/
theorem exists_runFilters (h : ∀ f ∈ fs, ∃ u, verdict f d = some u) (ret : BitVec 32) :
    ∃ v, runFilters d fs ret = some v := by
  induction fs generalizing ret with
  | nil => exact ⟨ret, rfl⟩
  | cons f fs ih =>
    obtain ⟨⟨cur, hf⟩, hfs⟩ := List.forall_mem_cons.mp h
    obtain ⟨v, hv⟩ := ih hfs (stricter ret cur)
    exact ⟨v, by rw [runFilters_cons, hf, Option.bind_some, hv]⟩

/-- Filters that are installed later take nothing back. -/
theorem runFilters_append_le (h : runFilters d fs ret = some v)
    (h' : runFilters d (fs' ++ fs) ret = some v') : precedence v' ≤ precedence v := by
  obtain ⟨hret, hall⟩ := (le_runFilters_iff h' (precedence v')).mp le_rfl
  exact (le_runFilters_iff h _).mpr ⟨hret, fun f hf => hall f (List.mem_append_right fs' hf)⟩

/-- The action of a filter that is stricter than all others. -/
theorem runFilters_eq {u : BitVec 32} (h : runFilters d fs ret = some v)
    (hu : ∃ f ∈ fs, verdict f d = some u)
    (hothers : ∀ f ∈ fs, ∃ w, verdict f d = some w ∧ (w = u ∨ ¬precedence w ≤ precedence u))
    (hret : ¬precedence ret ≤ precedence u) : v = u := by
  obtain ⟨f, hf, hfu⟩ := hu
  have hv : precedence v ≤ precedence u := ((le_runFilters_iff h _).mp le_rfl).2 f hf u hfu
  rcases mem_of_runFilters h with rfl | ⟨g, hg, hgv⟩
  · exact absurd hv hret
  · obtain ⟨w, hw, hwu⟩ := hothers g hg
    rw [hgv] at hw
    obtain rfl := Option.some_inj.mp hw
    exact hwu.resolve_right fun hne => hne hv

/-! ### The filters of the programs together -/

/-- All filters but two have the same beginning. -/
theorem check_prefix : ∀ f ∈ filters,
    f = trapSigsys ∨ f = denyOpen ∨ checkArchAndLoadSyscallNr <+: f := by
  decide

theorem foreign_verdict (hf : f ∈ filters) (hd : Foreign d) :
    f = trapSigsys ∨ verdict f d = some SECCOMP_RET_KILL_PROCESS := by
  rcases check_prefix f hf with rfl | rfl | ⟨is, rfl⟩
  · exact .inl rfl
  · rw [denyOpen_verdict, if_pos hd]
    exact .inr rfl
  · rw [verdict_check, if_pos hd]
    exact .inr rfl

theorem trapSigsys_foreign (hd : Foreign d) : verdict trapSigsys d =
    some (if d.arch ≠ AUDIT_ARCH_X86_64 then SECCOMP_RET_KILL else SECCOMP_RET_KILL_PROCESS) := by
  rw [trapSigsys_verdict]
  by_cases harch : d.arch ≠ AUDIT_ARCH_X86_64
  · rw [if_pos harch, if_pos harch]
  · rw [if_neg harch, if_neg harch, if_pos (hd.resolve_left harch)]

/-- What a filter does not name it allows; one filter logs it. -/
theorem unnamed_verdict (hf : f ∈ filters) (hd : ¬Foreign d) (hnr : d.nr ∉ named f) :
    f = logging ∨ verdict f d = some SECCOMP_RET_ALLOW := by
  obtain ⟨harch, hx32⟩ := not_or.mp hd
  have hnotMem {f : List SockFilter} {nrs : List (BitVec 32)} (h : named f = nrs)
      (hnr : d.nr ∉ named f) : ∀ nr ∈ nrs, d.nr ≠ nr :=
    fun nr hmem heq => hnr (h ▸ heq ▸ hmem)
  simp only [filters, List.mem_cons, List.not_mem_nil, or_false] at hf
  rcases hf with rfl | rfl | rfl | rfl | rfl | rfl | rfl | rfl | rfl
  · have hmkdir := hnotMem rfl hnr NR_mkdir (by decide)
    exact .inr (by rw [notifyFilter_verdict, if_neg hd, if_neg hmkdir])
  · have hmkdir := hnotMem rfl hnr NR_mkdir (by decide)
    exact .inr (by rw [filter2_verdict, if_neg hd, if_neg hmkdir])
  · have hmkdir := hnotMem rfl hnr NR_mkdir (by decide)
    exact .inr (by rw [filter2_verdict, if_neg hd, if_neg hmkdir])
  · exact .inl rfl
  · have hopen := hnotMem rfl hnr NR_open (by decide)
    exact .inr (by rw [perf_verdict, if_neg hd, if_neg hopen])
  · have hopen := hnotMem rfl hnr NR_open (by decide)
    have hopenat := hnotMem rfl hnr NR_openat (by decide)
    exact .inr (by rw [denyOpen_verdict, if_neg hd, if_neg (not_or.mpr ⟨hopen, hopenat⟩)])
  · have hgetppid := hnotMem rfl hnr NR_getppid (by decide)
    exact .inr (by rw [trapSigsys_verdict, if_neg harch, if_neg hx32, if_neg hgetppid])
  · have hopen := hnotMem rfl hnr NR_open (by decide)
    have hopenat := hnotMem rfl hnr NR_openat (by decide)
    exact .inr (by
      rw [controlOpen_verdict, if_pos (not_not.mp harch), if_neg hx32, if_neg hopen,
        if_neg hopenat])
  · have hlseek := hnotMem rfl hnr NR_lseek (by decide)
    exact .inr (by rw [arg64_verdict, if_pos (not_not.mp harch), if_neg hx32, if_neg hlseek])

/-- Every filter returns for every system call. -/
theorem exists_verdict (hf : f ∈ filters) (d : SeccompData) : ∃ u, verdict f d = some u := by
  simp only [filters, List.mem_cons, List.not_mem_nil, or_false] at hf
  rcases hf with rfl | rfl | rfl | rfl | rfl | rfl | rfl | rfl | rfl
  · exact ⟨_, notifyFilter_verdict d⟩
  · exact ⟨_, filter2_verdict _ d⟩
  · exact ⟨_, filter2_verdict _ d⟩
  · exact ⟨_, logging_verdict d⟩
  · exact ⟨_, perf_verdict d⟩
  · exact ⟨_, denyOpen_verdict d⟩
  · exact ⟨_, trapSigsys_verdict d⟩
  · exact ⟨_, controlOpen_verdict d⟩
  · exact ⟨_, arg64_verdict d⟩

/-- The action of some of the filters for a system call of another architecture. -/
theorem runFilters_foreign (hfs : ∀ f ∈ fs, f ∈ filters) (hne : fs ≠ []) (hd : Foreign d)
    (h : runFilters d fs SECCOMP_RET_ALLOW = some v) :
    v = if d.arch ≠ AUDIT_ARCH_X86_64 ∧ ∀ f ∈ fs, f = trapSigsys then SECCOMP_RET_KILL
      else SECCOMP_RET_KILL_PROCESS := by
  split
  case isTrue hall =>
    obtain ⟨harch, hall⟩ := hall
    have htrap : ∀ f ∈ fs, verdict f d = some SECCOMP_RET_KILL := fun f hf => by
      rw [hall f hf, trapSigsys_foreign hd, if_pos harch]
    obtain ⟨f, hf⟩ := List.exists_mem_of_ne_nil fs hne
    exact runFilters_eq h ⟨f, hf, htrap f hf⟩ (fun g hg => ⟨_, htrap g hg, .inl rfl⟩) (by decide)
  case isFalse hall =>
    refine runFilters_eq h ?_ (fun g hg => ?_) (by decide)
    · -- the filter that kills the process
      by_cases harch : d.arch ≠ AUDIT_ARCH_X86_64
      · obtain ⟨f, hf, hftrap⟩ : ∃ f ∈ fs, f ≠ trapSigsys := by
          by_contra hno
          exact hall ⟨harch, fun f hf => by_contra fun hftrap => hno ⟨f, hf, hftrap⟩⟩
        exact ⟨f, hf, (foreign_verdict (hfs f hf) hd).resolve_left hftrap⟩
      · obtain ⟨f, hf⟩ := List.exists_mem_of_ne_nil fs hne
        refine ⟨f, hf, ?_⟩
        rcases foreign_verdict (hfs f hf) hd with rfl | hkill
        · rw [trapSigsys_foreign hd, if_neg harch]
        · exact hkill
    · rcases foreign_verdict (hfs g hg) hd with rfl | hkill
      · refine ⟨_, trapSigsys_foreign hd, ?_⟩
        split
        · exact .inr (by decide)
        · exact .inl rfl
      · exact ⟨_, hkill, .inl rfl⟩

/-- The action of some of the filters for a system call that none of them names. -/
theorem runFilters_unnamed (hfs : ∀ f ∈ fs, f ∈ filters) (hd : ¬Foreign d)
    (hnr : ∀ f ∈ fs, d.nr ∉ named f) (h : runFilters d fs SECCOMP_RET_ALLOW = some v) :
    v = if logging ∈ fs then SECCOMP_RET_LOG else SECCOMP_RET_ALLOW := by
  have hlog : verdict logging d = some SECCOMP_RET_LOG := by rw [logging_verdict, if_neg hd]
  split
  case isTrue hmem =>
    refine runFilters_eq h ⟨logging, hmem, hlog⟩ (fun g hg => ?_) (by decide)
    rcases unnamed_verdict (hfs g hg) hd (hnr g hg) with rfl | hallow
    · exact ⟨_, hlog, .inl rfl⟩
    · exact ⟨_, hallow, .inr (by decide)⟩
  case isFalse hmem =>
    rcases mem_of_runFilters h with hv | ⟨g, hg, hgv⟩
    · exact hv
    · rcases unnamed_verdict (hfs g hg) hd (hnr g hg) with rfl | hallow
      · exact absurd hg hmem
      · rw [hallow] at hgv
        exact (Option.some_inj.mp hgv).symm

/-- The action of the filters of the target process. -/
theorem runFilters_installed (secondFilter : Option (BitVec 32)) (d : SeccompData) :
    runFilters d (installed secondFilter) SECCOMP_RET_ALLOW =
      some (if Foreign d then SECCOMP_RET_KILL_PROCESS
        else if d.nr = NR_mkdir then
          if secondFilter = some SECCOMP_RET_ERRNO then SECCOMP_RET_ERRNO ||| ENOTSUP
          else SECCOMP_RET_USER_NOTIF
        else SECCOMP_RET_ALLOW) := by
  cases secondFilter with
  | none =>
    rw [installed, runFilters_cons, notifyFilter_verdict, Option.bind_some, runFilters_nil]
    by_cases hd : Foreign d
    · rw [if_pos hd, if_pos hd]
      rfl
    · rw [if_neg hd, if_neg hd, if_neg (Option.some_ne_none _).symm]
      split <;> rfl
  | some secondFilter =>
    rw [installed, runFilters_cons, filter2_verdict, Option.bind_some, runFilters_cons,
      notifyFilter_verdict, Option.bind_some, runFilters_nil, Option.some_inj]
    by_cases hd : Foreign d
    · rw [if_pos hd, if_pos hd, if_pos hd]
      rfl
    · rw [if_neg hd, if_neg hd, if_neg hd]
      by_cases hmkdir : d.nr = NR_mkdir
      · rw [if_pos hmkdir, if_pos hmkdir, if_pos hmkdir]
        by_cases herrno : secondFilter = SECCOMP_RET_ERRNO
        · rw [if_pos herrno, if_pos (congrArg some herrno)]
          rfl
        · rw [if_neg herrno, if_neg fun h => herrno (Option.some_inj.mp h)]
          rfl
      · rw [if_neg hmkdir, if_neg hmkdir, if_neg hmkdir]
        rfl

/-- Any filters of the programs together, in any order: they return for every system call, filters
on top of them never make them more lenient, and they kill what is foreign; the filters of the
target process notify of `mkdir` unless the second one makes it fail. -/
theorem filters_stacked (d : SeccompData) :
    (∀ fs, (∀ f ∈ fs, f ∈ filters) → ∃ v, runFilters d fs SECCOMP_RET_ALLOW = some v ∧
      (∀ fs' v', runFilters d (fs' ++ fs) SECCOMP_RET_ALLOW = some v' →
        precedence v' ≤ precedence v) ∧
      (Foreign d → fs ≠ [] →
        v = if d.arch ≠ AUDIT_ARCH_X86_64 ∧ ∀ f ∈ fs, f = trapSigsys then SECCOMP_RET_KILL
          else SECCOMP_RET_KILL_PROCESS) ∧
      (¬Foreign d → (∀ f ∈ fs, d.nr ∉ named f) →
        v = if logging ∈ fs then SECCOMP_RET_LOG else SECCOMP_RET_ALLOW)) ∧
    ∀ secondFilter, runFilters d (installed secondFilter) SECCOMP_RET_ALLOW =
      some (if Foreign d then SECCOMP_RET_KILL_PROCESS
        else if d.nr = NR_mkdir then
          if secondFilter = some SECCOMP_RET_ERRNO then SECCOMP_RET_ERRNO ||| ENOTSUP
          else SECCOMP_RET_USER_NOTIF
        else SECCOMP_RET_ALLOW) := by
  refine ⟨fun fs hfs => ?_, fun secondFilter => runFilters_installed secondFilter d⟩
  obtain ⟨v, hv⟩ := exists_runFilters (fun f hf => exists_verdict (hfs f hf) d) SECCOMP_RET_ALLOW
  exact ⟨v, hv, fun _ _ h => runFilters_append_le hv h,
    fun hd hne => runFilters_foreign hfs hne hd hv,
    fun hd hnr => runFilters_unnamed hfs hd hnr hv⟩

end Tlpi.Seccomp
