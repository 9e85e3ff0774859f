import Tlpi.Lib.Bpf
import Tlpi.Lib.CInt
import Tlpi.Lib.LittleEndian

/-!
# Loading and dumping a filter (`seccomp/seccomp_launch.c`, `seccomp/dump_seccomp_filter.c`)

`loadFilter` reads a file of `struct sock_filter` instructions and passes them to `seccomp()`. The
size of the file goes through an `int`, and the number of instructions through the 16 bits of
`struct sock_fprog`.
-/

namespace Tlpi.Seccomp

open Bpf

/-- The bytes of `struct sock_filter` in memory. -/
def instrBytes (i : SockFilter) : List UInt8 :=
  leBytes 2 i.code.toNat ++ leBytes 1 i.jt.toNat ++ leBytes 1 i.jf.toNat ++ leBytes 4 i.k.toNat

def instrOf (bs : List UInt8) : SockFilter where
  code := .ofNat 16 (leNat (bs.take 2))
  jt := .ofNat 8 (leNat ((bs.drop 2).take 1))
  jf := .ofNat 8 (leNat ((bs.drop 3).take 1))
  k := .ofNat 32 (leNat ((bs.drop 4).take 4))

/-- The first `n` instructions in memory. -/
def instrsOf : Nat → List UInt8 → List SockFilter
  | 0, _ => []
  | n + 1, bs => instrOf bs :: instrsOf n (bs.drop 8)

/-- The bytes of a sequence of instructions. -/
def filterBytes (prog : List SockFilter) : List UInt8 := prog.flatMap instrBytes

def BPF_MAXINSNS : Nat := 4096

/-- The most that one `read()` transfers on Linux. -/
def MAX_RW_COUNT : Nat := 0x7ffff000

/-- How the calls that `loadFilter` makes end. -/
structure Calls where
  prctl : Bool
  openFile : Bool
  fstat : Bool
  malloc : Nat → Bool
  /-- The number of bytes that can be read at once, unless the call fails. -/
  read : Option Nat
  close : Bool
  /-- The verdict of the kernel on a filter of an admissible length. -/
  seccomp : List SockFilter → Bool

/-- The bytes that `read(fd, buf, count)` stores. -/
def Calls.readBytes (c : Calls) (count : Nat) (file : List UInt8) : Option (List UInt8) :=
  if count ≥ 2 ^ 63 then none else c.read.map fun n => file.take (min n (min count MAX_RW_COUNT))

/-- `seccomp(SECCOMP_SET_MODE_FILTER, 0, &fprog)`: a filter without instructions or with more than
`BPF_MAXINSNS` is refused. -/
def Calls.install (c : Calls) (prog : List SockFilter) : Bool :=
  1 ≤ prog.length && prog.length ≤ BPF_MAXINSNS && c.seccomp prog

/-- The filter that is installed from a file, or the message with which the program terminates. -/
def loadFilter (noNewPrivsAlreadySet : Bool) (c : Calls) (file : List UInt8) :
    Except String (List SockFilter) :=
  if !noNewPrivsAlreadySet && !c.prctl then .error "prctl"
  else if !c.openFile then .error "open"
  else if !c.fstat then .error "fstat"
  else
    let filterSize := wrap32 file.length
    -- the operands of `%` and `/` and the arguments of the calls are of type `size_t`
    let size := (filterSize % 2 ^ 64).toNat
    if size % 8 ≠ 0 then .error "Filter has odd size\n"
    else if !c.malloc size then .error "malloc"
    else
      match c.readBytes size file with
      | none => .error "Failure reading filter\n"
      | some filter =>
        if (filter.length : Int) ≠ filterSize then .error "Failure reading filter\n"
        else if !c.close then .error "close"
        else
          let prog := instrsOf (size / 8 % 2 ^ 16) filter
          if c.install prog then .ok prog else .error "seccomp"

/-- How the calls that `dumpFilter` makes end. -/
structure DumpCalls where
  openFile : Bool
  write : Bool
  close : Bool

/-- The contents of the file afterwards, where `write()` writes all or fails. -/
def dumpFilter (c : DumpCalls) (prog : List SockFilter) : Except String (List UInt8) :=
  if !c.openFile then .error "open"
  else if !c.write then .error "write"
  else if !c.close then .error "close"
  else .ok (filterBytes prog)

/-! ### Instructions as bytes -/

@[simp] theorem length_instrBytes (i : SockFilter) : (instrBytes i).length = 8 := by
  simp [instrBytes]

theorem instrOf_append (i : SockFilter) (rest : List UInt8) : instrOf (instrBytes i ++ rest) = i := by
  obtain ⟨code, jt, jf, k⟩ := i
  have hdrop {n m : Nat} {x : Nat} {bs cs ds : List UInt8} (h : ds.drop m = leBytes n x ++ cs)
      (hbs : cs = bs) : ds.drop (m + n) = bs := by
    rw [← List.drop_drop, h, List.drop_left' (length_leBytes n x), hbs]
  have h0 : (instrBytes ⟨code, jt, jf, k⟩ ++ rest).drop 0 = leBytes 2 code.toNat ++
      (leBytes 1 jt.toNat ++ (leBytes 1 jf.toNat ++ (leBytes 4 k.toNat ++ rest))) := by
    simp [instrBytes]
  have h2 := hdrop h0 rfl
  have h3 := hdrop h2 rfl
  have h4 := hdrop h3 rfl
  rw [List.drop_zero] at h0
  rw [instrOf, h2, h3, h4, h0, List.take_left' (length_leBytes 2 _),
    List.take_left' (length_leBytes 1 _), List.take_left' (length_leBytes 1 _),
    List.take_left' (length_leBytes 4 _), SockFilter.mk.injEq]
  exact ⟨ofNat_leNat_leBytes (n := 2) code, ofNat_leNat_leBytes (n := 1) jt,
    ofNat_leNat_leBytes (n := 1) jf, ofNat_leNat_leBytes (n := 4) k⟩

theorem instrBytes_instrOf {bs : List UInt8} (h : 8 ≤ bs.length) :
    instrBytes (instrOf bs) = bs.take 8 := by
  have hcode : leBytes 2 (instrOf bs).code.toNat = bs.take 2 :=
    leBytes_ofNat_leNat (by rw [List.length_take]; omega)
  have hjt : leBytes 1 (instrOf bs).jt.toNat = (bs.drop 2).take 1 :=
    leBytes_ofNat_leNat (by rw [List.length_take, List.length_drop]; omega)
  have hjf : leBytes 1 (instrOf bs).jf.toNat = (bs.drop 3).take 1 :=
    leBytes_ofNat_leNat (by rw [List.length_take, List.length_drop]; omega)
  have hk : leBytes 4 (instrOf bs).k.toNat = (bs.drop 4).take 4 :=
    leBytes_ofNat_leNat (by rw [List.length_take, List.length_drop]; omega)
  rw [instrBytes, hcode, hjt, hjf, hk, ← List.take_add, ← List.take_add, ← List.take_add]

@[simp] theorem length_instrsOf (n : Nat) (bs : List UInt8) : (instrsOf n bs).length = n := by
  induction n generalizing bs with
  | zero => rfl
  | succ n ih => rw [instrsOf, List.length_cons, ih]

@[simp] theorem length_filterBytes (prog : List SockFilter) :
    (filterBytes prog).length = 8 * prog.length := by
  induction prog with
  | nil => rfl
  | cons i prog ih =>
    rw [filterBytes, List.flatMap_cons, List.length_append, ← filterBytes, ih, length_instrBytes,
      List.length_cons]
    omega

theorem filterBytes_instrsOf {n : Nat} {bs : List UInt8} (h : 8 * n ≤ bs.length) :
    filterBytes (instrsOf n bs) = bs.take (8 * n) := by
  induction n generalizing bs with
  | zero => rfl
  | succ n ih =>
    have hrest : 8 * n ≤ (bs.drop 8).length := by
      rw [List.length_drop]
      omega
    rw [instrsOf, filterBytes, List.flatMap_cons, ← filterBytes, ih hrest,
      instrBytes_instrOf (by omega), ← List.take_add, Nat.mul_succ, Nat.add_comm]

theorem instrsOf_filterBytes (prog : List SockFilter) :
    instrsOf prog.length (filterBytes prog) = prog := by
  induction prog with
  | nil => rfl
  | cons i prog ih =>
    rw [List.length_cons, instrsOf, filterBytes, List.flatMap_cons, instrOf_append,
      List.drop_left' (length_instrBytes i), ← filterBytes, ih]

/-! ### What is installed -/

variable {noNewPrivsAlreadySet : Bool} {c : Calls} {file : List UInt8} {prog : List SockFilter}

/-- A size that the `int` holds is read in one piece; a negative one is never read. -/
theorem readBytes_eq {filter : List UInt8}
    (hread : c.readBytes (wrap32 file.length % 2 ^ 64).toNat file = some filter)
    (hlen : (filter.length : Int) = wrap32 file.length) :
    filter = file.take (file.length % 2 ^ 32) ∧ file.length % 2 ^ 32 ≤ MAX_RW_COUNT ∧
      (wrap32 file.length % 2 ^ 64).toNat = file.length % 2 ^ 32 := by
  have hwrap : wrap32 file.length = (file.length % 2 ^ 32 : Nat) := by
    simp only [wrap, Int.bmod] at hlen ⊢
    split at hlen <;> rename_i hcond
    · rw [if_pos hcond]
      omega
    · omega
  have hsize : (wrap32 file.length % 2 ^ 64).toNat = file.length % 2 ^ 32 := by
    rw [hwrap]
    omega
  rw [hsize, Calls.readBytes, if_neg (by omega)] at hread
  obtain ⟨n, -, rfl⟩ := Option.map_eq_some_iff.mp hread
  rw [hwrap, List.length_take, Int.ofNat_inj] at hlen
  have hmin : min n (min (file.length % 2 ^ 32) MAX_RW_COUNT) = file.length % 2 ^ 32 := by omega
  exact ⟨by rw [hmin], by omega, hsize⟩

theorem loadFilter_ok (h : loadFilter noNewPrivsAlreadySet c file = .ok prog) :
    ∃ n, n = file.length % 2 ^ 32 ∧ n % 8 = 0 ∧ n ≤ MAX_RW_COUNT ∧
      prog = instrsOf (n / 8 % 2 ^ 16) (file.take n) ∧ 1 ≤ prog.length ∧
      prog.length ≤ BPF_MAXINSNS := by
  unfold loadFilter at h
  split at h
  · cases h
  split at h
  · cases h
  split at h
  · cases h
  simp only at h
  split at h
  · cases h
  next hodd =>
  split at h
  · cases h
  split at h
  · cases h
  next filter hread =>
  split at h
  · cases h
  next hlen =>
  split at h
  · cases h
  split at h
  next hinstall =>
    obtain ⟨hfilter, hmax, hsize⟩ := readBytes_eq hread (not_not.mp hlen)
    cases h
    rw [hsize] at hodd hinstall ⊢
    simp only [Calls.install, Bool.and_eq_true, decide_eq_true_eq] at hinstall
    exact ⟨_, rfl, not_not.mp hodd, hmax, by rw [hfilter], hinstall.1.1, hinstall.1.2⟩
  · cases h

/-- The calls that never fail, for a file that is read at once. -/
def Calls.Clean (c : Calls) (file : List UInt8) : Prop :=
  c.prctl ∧ c.openFile ∧ c.fstat ∧ (∀ n, c.malloc n) ∧ c.read = some file.length ∧ c.close ∧
    ∀ prog, c.seccomp prog

theorem loadFilter_of_clean (hc : c.Clean file) (h8 : file.length % 8 = 0)
    (hmax : file.length % 2 ^ 32 ≤ MAX_RW_COUNT)
    (hpos : 1 ≤ file.length % 2 ^ 32 / 8 % 2 ^ 16)
    (hle : file.length % 2 ^ 32 / 8 % 2 ^ 16 ≤ BPF_MAXINSNS) :
    loadFilter noNewPrivsAlreadySet c file =
      .ok (instrsOf (file.length % 2 ^ 32 / 8 % 2 ^ 16) (file.take (file.length % 2 ^ 32))) := by
  obtain ⟨hprctl, hopen, hfstat, hmalloc, hread, hclose, hseccomp⟩ := hc
  have hwrap : wrap32 file.length = (file.length % 2 ^ 32 : Nat) := by
    simp only [wrap, Int.bmod]
    rw [if_pos (by simp only [MAX_RW_COUNT] at hmax; omega)]
    omega
  have hsize : (wrap32 file.length % 2 ^ 64).toNat = file.length % 2 ^ 32 := by
    rw [hwrap]
    omega
  have hodd : ¬file.length % 2 ^ 32 % 8 ≠ 0 := by omega
  have hbytes : c.readBytes (file.length % 2 ^ 32) file =
      some (file.take (file.length % 2 ^ 32)) := by
    have hmin : min file.length (min (file.length % 2 ^ 32) MAX_RW_COUNT) = file.length % 2 ^ 32 := by
      omega
    rw [Calls.readBytes, if_neg (by omega), hread, Option.map_some, hmin]
  have hlen : ((file.take (file.length % 2 ^ 32)).length : Int) = wrap32 file.length := by
    rw [hwrap, List.length_take, Nat.min_eq_left (Nat.mod_le _ _)]
  have hinstall : c.install (instrsOf (file.length % 2 ^ 32 / 8 % 2 ^ 16)
      (file.take (file.length % 2 ^ 32))) = true := by
    rw [Calls.install, length_instrsOf, hseccomp, Bool.and_true, Bool.and_eq_true]
    exact ⟨decide_eq_true hpos, decide_eq_true hle⟩
  simp only [loadFilter, hprctl, hopen, hfstat, hsize, hmalloc, hbytes, hclose, hinstall, Bool.not_true,
    Bool.and_false, Bool.false_eq_true, if_false, if_true, if_neg hodd, if_neg (not_not.mpr hlen)]

/-- A size for which a part of the file is installed: it is reduced by the `int` or by the 16 bits of
the length to one that passes all checks. -/
def CutShort (size : Nat) : Prop :=
  size % 8 = 0 ∧ 2 ^ 19 ≤ size ∧ size % 2 ^ 32 ≤ MAX_RW_COUNT ∧ 1 ≤ size % 2 ^ 32 / 8 % 2 ^ 16 ∧
    size % 2 ^ 32 / 8 % 2 ^ 16 ≤ BPF_MAXINSNS

instance (size : Nat) : Decidable (CutShort size) := inferInstanceAs (Decidable (_ ∧ _))

/-- However the calls end, the program terminates with an error or passes to `seccomp()` the
instructions of the file. -/
def WholeOrNothing (file : List UInt8) : Prop :=
  ∀ noNewPrivsAlreadySet c prog, loadFilter noNewPrivsAlreadySet c file = .ok prog →
    filterBytes prog = file

/-- A file that was dumped is loaded as the filter that it was dumped from, and the load succeeds if
none of its calls fails and the kernel takes filters of that length. -/
def RoundTrips (prog : List SockFilter) : Prop :=
  ∀ dc file, dumpFilter dc prog = .ok file → ∀ noNewPrivsAlreadySet c,
    (∀ prog', loadFilter noNewPrivsAlreadySet c file = .ok prog' → prog' = prog) ∧
    (c.Clean file → 1 ≤ prog.length → prog.length ≤ BPF_MAXINSNS →
      loadFilter noNewPrivsAlreadySet c file = .ok prog)

theorem filterBytes_of_ok (hcut : ¬CutShort file.length)
    (h : loadFilter noNewPrivsAlreadySet c file = .ok prog) : filterBytes prog = file := by
  obtain ⟨n, hn, h8, hmax, rfl, hpos, hle⟩ := loadFilter_ok h
  rw [length_instrsOf] at hpos hle
  have hsmall : file.length < 2 ^ 19 := by
    by_contra hbig
    exact hcut ⟨by omega, by omega, hn ▸ hmax, hn ▸ hpos, hn ▸ hle⟩
  have hnlen : n = file.length := by omega
  have hcount : 8 * (n / 8 % 2 ^ 16) = n := by omega
  subst hnlen
  rw [List.take_length, filterBytes_instrsOf (by omega), hcount, List.take_length]

theorem exists_clean (file : List UInt8) : ∃ c : Calls, c.Clean file :=
  ⟨⟨true, true, true, fun _ => true, some file.length, true, fun _ => true⟩, by simp [Calls.Clean]⟩

/-- A file that is cut short is loaded as fewer instructions than it has. -/
theorem exists_short (hcut : CutShort file.length) :
    ∃ c prog, loadFilter false c file = .ok prog ∧ 8 * prog.length < file.length := by
  obtain ⟨c, hc⟩ := exists_clean file
  obtain ⟨h8, hbig, hmax, hpos, hle⟩ := hcut
  refine ⟨c, _, loadFilter_of_clean hc h8 hmax hpos hle, ?_⟩
  rw [length_instrsOf]
  omega

theorem wholeOrNothing_iff : WholeOrNothing file ↔ ¬CutShort file.length := by
  constructor
  · intro h hcut
    obtain ⟨c, prog, hok, hlt⟩ := exists_short hcut
    rw [← h _ _ _ hok, length_filterBytes] at hlt
    exact lt_irrefl _ hlt
  · exact fun hcut _ _ _ h => filterBytes_of_ok hcut h

theorem filterBytes_inj {p q : List SockFilter} (h : filterBytes p = filterBytes q) : p = q := by
  have hlen := congrArg List.length h
  rw [length_filterBytes, length_filterBytes] at hlen
  rw [← instrsOf_filterBytes p, ← instrsOf_filterBytes q, h, show p.length = q.length by omega]

theorem loadFilter_filterBytes (hc : c.Clean (filterBytes prog)) (hpos : 1 ≤ prog.length)
    (hle : prog.length ≤ BPF_MAXINSNS) :
    loadFilter noNewPrivsAlreadySet c (filterBytes prog) = .ok prog := by
  have hlen := length_filterBytes prog
  simp only [BPF_MAXINSNS] at hle
  have hmod : (filterBytes prog).length % 2 ^ 32 = (filterBytes prog).length := by omega
  have hcount : (filterBytes prog).length % 2 ^ 32 / 8 % 2 ^ 16 = prog.length := by omega
  rw [loadFilter_of_clean hc (by omega) (by simp only [MAX_RW_COUNT]; omega) (by omega)
    (by simp only [BPF_MAXINSNS]; omega), hcount, hmod, List.take_length, instrsOf_filterBytes]

theorem roundTrips_iff : RoundTrips prog ↔ ¬CutShort (8 * prog.length) := by
  rw [← length_filterBytes]
  constructor
  · intro h hcut
    obtain ⟨c, prog', hok, hlt⟩ := exists_short hcut
    rw [(h ⟨true, true, true⟩ _ rfl false c).1 _ hok, length_filterBytes] at hlt
    exact lt_irrefl _ hlt
  · intro hcut dc file hdump st c
    have hfile : file = filterBytes prog := by
      unfold dumpFilter at hdump
      split at hdump
      · cases hdump
      split at hdump
      · cases hdump
      split at hdump
      · cases hdump
      · cases hdump
        rfl
    subst hfile
    exact ⟨fun prog' hok => filterBytes_inj (filterBytes_of_ok hcut hok), loadFilter_filterBytes⟩

/-- A file is installed as a whole or not at all exactly if its size is not reduced to that of a
shorter filter, and this is also when a dumped filter is loaded again as it was. -/
theorem loadFilter_wholeOrNothing_iff (file : List UInt8) (prog : List SockFilter) :
    (WholeOrNothing file ↔ ¬CutShort file.length) ∧
      (RoundTrips prog ↔ ¬CutShort (8 * prog.length)) :=
  ⟨wholeOrNothing_iff, roundTrips_iff⟩

/-- Of a file of 65537 instructions one is installed. -/
theorem loadFilter_not_wholeOrNothing :
    ¬WholeOrNothing (filterBytes (List.replicate 65537 (stmt (BPF_RET ||| BPF_K) 0))) := by
  rw [wholeOrNothing_iff, length_filterBytes, List.length_replicate, not_not]
  decide

end Tlpi.Seccomp
