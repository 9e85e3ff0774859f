import Tlpi.Lib.FdTable
import Tlpi.Sockets.ScmMulti

/-!
# Passing one descriptor (`sockets/scm_functions.c`)

`sendfd` and `recvfd` use a control buffer for one descriptor. Its padding has room for another one,
and the kernel uses that room if the sender has sent more than `sendfd` does.
-/

namespace Tlpi.ScmFunctions

open Cmsg ScmMulti

variable {α : Type}

/-- `sizeof(controlMsg.buf)` -/
def controlLen : Nat := cmsgSpace sizeofInt

/-! ### The kernel -/

/-- The file of a descriptor of the sender. -/
def fget (t : FdTable α) (fd : Fd) : Option α := if fd.toInt < 0 then none else t.get fd.toNat

/-- The files that a message takes along; `none` if the call fails. -/
def sendmsg (t : FdTable α) (mem : Mem) (controllen : Nat) : Option (List α) :=
  match sendmsgBlocks mem controllen with
  | some (.ok bs) =>
    if bs.all (fun b => b.level = SOL_SOCKET ∧ b.type = SCM_RIGHTS) then
      (bs.flatMap fun b => intsOf b.data).mapM (fget t)
    else none
  | _ => none

/-- New descriptors for files, as long as there are numbers below `limit`. -/
def install (limit : Nat) (t : FdTable α) : List α → FdTable α × List Fd
  | [] => (t, [])
  | file :: files =>
    if t.lowest < limit then
      ((install limit (t.alloc file) files).1,
        BitVec.ofNat 32 t.lowest :: (install limit (t.alloc file) files).2)
    else (t, [])

/-- The receiver's descriptors, its control buffer and `msg_controllen` after `recvmsg`. What is
left of a message when the buffer or the table is full is dropped. -/
def recvmsg (limit : Nat) (t : FdTable α) (mem : Mem) (controllen : Nat) (files : List α) :
    FdTable α × Mem × Nat :=
  let r := install limit t (files.take ((controllen - sizeofCmsghdr) / sizeofInt))
  match r.2 with
  | [] => (r.1, mem, 0)
  | fds => (r.1, mem.store 0 (rightsBlock fds).bytes,
      min (cmsgSpace (sizeofInt * fds.length)) controllen)

/-! ### The functions -/

/-- The files that are sent; `none` on failure. -/
def sendfd (t : FdTable α) (controlMsg : Mem) (fd : Fd) : Option (List α) := do
  let cmsgp ← firsthdr controlLen
  let mem ← setBlock controlLen controlMsg cmsgp SOL_SOCKET SCM_RIGHTS sizeofInt (intBytes [fd])
  sendmsg t mem controlLen

inductive Error where
  | EINVAL
  deriving DecidableEq

/-- `fd` at the header `cmsgp`, if the header is the one that is expected. -/
def checkHdr (mem : Mem) : Option Nat → Except Error Fd
  | none => .error .EINVAL
  | some cmsgp =>
    if lenAt mem cmsgp ≠ cmsgLen sizeofInt ∨ levelAt mem cmsgp ≠ SOL_SOCKET ∨
        typeAt mem cmsgp ≠ SCM_RIGHTS then .error .EINVAL
    else .ok ((intsOf (mem.load (cmsgData cmsgp) sizeofInt)).getD 0 0)

/-- The receiver's descriptors afterwards, and the result, for the message with these files. -/
def recvfd (limit : Nat) (t : FdTable α) (controlMsg : Mem) (files : List α) :
    FdTable α × Except Error Fd :=
  let (t, mem, controllen) := recvmsg limit t controlMsg controlLen files
  (t, checkHdr mem (firsthdr controllen))

/-! ### The sender -/

section

variable {t : FdTable α} {fd : Fd} {file : α} {files : List α} {limit : Nat} {mem : Mem}

theorem length_rightsBlock (fds : List Fd) :
    (rightsBlock fds).data.length = sizeofInt * fds.length :=
  length_intBytes fds

theorem sendmsgBlocks_one {controllen : Nat} {b : Block} (h : Holds mem controllen 0 [b]) :
    sendmsgBlocks mem controllen = some (.ok [b]) := by
  have hspace : sizeofCmsghdr + b.data.length ≤ b.space := add_le_cmsgSpace h.1.small
  have hle := h.2.le
  have hhdr : sizeofCmsghdr = 16 := rfl
  have hfirst : firsthdr controllen = some 0 := if_pos (by omega)
  rw [sendmsgBlocks, hfirst]
  exact forEachHdr_eq_foldlM lawful_nxthdrKernel (f := fun bs b => .ok (bs ++ [b]))
    (fun _ _ _ hb hle bs => readBlock_eq hb hle bs) h (by simp; omega) []

/-- The message takes the file of the descriptor along, and nothing else. -/
theorem sendfd_eq (t : FdTable α) (mem : Mem) (fd : Fd) :
    sendfd t mem fd = (fget t fd).map fun file => [file] := by
  have hsmall : (rightsBlock [fd]).data.length < 2 ^ 63 := by
    rw [length_rightsBlock, sizeofInt, List.length_singleton]
    decide
  have hspace : (rightsBlock [fd]).space = controlLen := by
    rw [Block.space, length_rightsBlock]
    rfl
  obtain ⟨mem', hset, hat, -⟩ := setBlock_spec controlLen 0 (rightsBlock [fd]) mem hsmall
    (by rw [hspace, Nat.zero_add])
  rw [length_rightsBlock] at hset
  have hholds : Holds mem' controlLen 0 [rightsBlock [fd]] :=
    ⟨hat, by rw [hspace, Nat.zero_add]; rfl⟩
  have hfirst : firsthdr controlLen = some 0 := rfl
  simp only [sendfd, hfirst, Option.bind_eq_bind, Option.bind_some]
  change (setBlock controlLen mem 0 (rightsBlock [fd]).level (rightsBlock [fd]).type
    (sizeofInt * [fd].length) (rightsBlock [fd]).data).bind _ = _
  rw [hset, Option.bind_some, sendmsg, sendmsgBlocks_one hholds]
  cases h : fget t fd <;> simp [rightsBlock, h]

/-! ### The receiver -/

/-- Two descriptors take as much space as one. -/
theorem cmsgSpace_one_two : cmsgSpace (sizeofInt * 1) = controlLen ∧
    cmsgSpace (sizeofInt * 2) = controlLen := ⟨rfl, rfl⟩

theorem firsthdr_controlLen : firsthdr controlLen = some 0 := rfl

theorem cmsgLen_two : cmsgLen (sizeofInt * 2) ≠ cmsgLen sizeofInt := by decide

theorem blockAt_rights (mem : Mem) (fds : List Fd) (h : fds.length ≤ 2) :
    BlockAt (mem.store 0 (rightsBlock fds).bytes) 0 (rightsBlock fds) := by
  refine blockAt_store mem 0 ?_
  rw [length_rightsBlock, sizeofInt]
  omega

/-- The header that the kernel writes for one descriptor is the one that is expected. -/
theorem checkHdr_one (mem : Mem) (fd : Fd) :
    checkHdr (mem.store 0 (rightsBlock [fd]).bytes) (some 0) = .ok fd := by
  have hat := blockAt_rights mem [fd] (by simp)
  have hlen := hat.len
  have hdata := hat.data
  rw [length_rightsBlock, List.length_singleton, Nat.mul_one] at hlen hdata
  rw [checkHdr, if_neg]
  · rw [hdata]
    simp [rightsBlock]
  · rw [hlen, hat.level, hat.type]
    simp [rightsBlock]

theorem checkHdr_two (mem : Mem) (fd fd' : Fd) :
    checkHdr (mem.store 0 (rightsBlock [fd, fd']).bytes) (some 0) = .error .EINVAL := by
  have hlen := (blockAt_rights mem [fd, fd'] (by simp)).len
  rw [length_rightsBlock] at hlen
  rw [checkHdr, if_pos]
  left
  rw [hlen]
  exact cmsgLen_two

theorem length_install (limit : Nat) (t : FdTable α) (files : List α) :
    (install limit t files).2.length ≤ files.length := by
  induction files generalizing t with
  | nil => exact Nat.le_refl 0
  | cons file files ih =>
    rw [install]
    split
    · exact Nat.succ_le_succ (ih _)
    · exact Nat.zero_le _

theorem recvfd_eq (limit : Nat) (t : FdTable α) (mem : Mem) (files : List α) :
    recvfd limit t mem files = ((install limit t (files.take 2)).1,
      match (install limit t (files.take 2)).2 with
      | [fd] => .ok fd
      | _ => .error .EINVAL) := by
  have hroom : (controlLen - sizeofCmsghdr) / sizeofInt = 2 := rfl
  have hlen := length_install limit t (files.take 2)
  rw [List.length_take] at hlen
  simp only [recvfd, recvmsg, hroom]
  match h : (install limit t (files.take 2)).2 with
  | [] => rfl
  | [fd] =>
    simp only [List.length_singleton, cmsgSpace_one_two.1, Nat.min_self, firsthdr_controlLen,
      checkHdr_one]
  | [fd, fd'] =>
    simp only [List.length_cons, List.length_nil, Nat.zero_add, Nat.reduceAdd, cmsgSpace_one_two.2,
      Nat.min_self, firsthdr_controlLen, checkHdr_two]
  | _ :: _ :: _ :: _ =>
    rw [h] at hlen
    simp only [List.length_cons] at hlen
    omega

/-- The number of a new descriptor is an `int` that stands for it. -/
theorem fget_ofNat (t : FdTable α) {n : Nat} (h : n < 2 ^ 31) :
    fget t (BitVec.ofNat 32 n) = t.get n := by
  have hnat : (BitVec.ofNat 32 n).toNat = n := by
    rw [BitVec.toNat_ofNat]
    omega
  rw [fget, if_neg, hnat]
  rw [BitVec.toInt_eq_toNat_of_lt (by omega)]
  omega

/-- `sendfd` sends the file of the descriptor, and `recvfd` makes a new descriptor for it. A message
that somebody else has sent is refused if nothing was received, and also if two descriptors were;
these stay open, and the caller does not know them. -/
theorem sendfd_recvfd {limit : Nat} (hlimit : limit ≤ 2 ^ 31) :
    (∀ (t : FdTable α) mem fd, sendfd t mem fd = (fget t fd).map fun file => [file]) ∧
      (∀ (t : FdTable α) mem file files, t.lowest < limit →
        files = [] ∨ limit ≤ (t.alloc file).lowest →
          ∃ t' fd, recvfd limit t mem (file :: files) = (t', .ok fd) ∧ fd.toNat = t.lowest ∧
            fget t' fd = some file ∧ t.Gains t' fd.toNat file) ∧
      (∀ (t : FdTable α) mem files, files = [] ∨ limit ≤ t.lowest →
        recvfd limit t mem files = (t, .error .EINVAL)) ∧
      ∀ (t : FdTable α) mem file file' files, (t.alloc file).lowest < limit →
        recvfd limit t mem (file :: file' :: files) =
          ((t.alloc file).alloc file', .error .EINVAL) := by
  refine ⟨sendfd_eq, fun t mem file files hlow hone => ?_, fun t mem files hnone => ?_,
    fun t mem file file' files hlow => ?_⟩
  · have hnat : (BitVec.ofNat 32 t.lowest).toNat = t.lowest := by
      rw [BitVec.toNat_ofNat]
      omega
    refine ⟨t.alloc file, BitVec.ofNat 32 t.lowest, ?_, hnat, ?_, ?_⟩
    · have hinstall : install limit t ((file :: files).take 2) =
          (t.alloc file, [BitVec.ofNat 32 t.lowest]) := by
        rw [List.take_succ_cons, install, if_pos hlow]
        cases files with
        | nil => rfl
        | cons file' files =>
          have hfull := hone.resolve_left (List.cons_ne_nil _ _)
          rw [List.take_succ_cons, install, if_neg (Nat.not_lt.mpr hfull)]
      rw [recvfd_eq, hinstall]
    · rw [fget_ofNat _ (by omega), FdTable.get_alloc_lowest]
    · rw [hnat]
      exact FdTable.gains_alloc t file
  · have hinstall : install limit t (files.take 2) = (t, []) := by
      cases files with
      | nil => rfl
      | cons file files =>
        have hfull := hnone.resolve_left (List.cons_ne_nil _ _)
        rw [List.take_succ_cons, install, if_neg (Nat.not_lt.mpr hfull)]
    rw [recvfd_eq, hinstall]
  · have hinstall : install limit t ((file :: file' :: files).take 2) =
        ((t.alloc file).alloc file',
          [BitVec.ofNat 32 t.lowest, BitVec.ofNat 32 (t.alloc file).lowest]) := by
      rw [List.take_succ_cons, List.take_succ_cons, List.take_zero, install,
        if_pos ((FdTable.lowest_lt_lowest_alloc t file).trans hlow), install, if_pos hlow, install]
    rw [recvfd_eq, hinstall]

/-- A sender with a file at 3 and a receiver with the numbers below 3 in use. -/
theorem sendfd_recvfd_three :
    ∃ t' fd, recvfd 1024 (⟨[some 'i', some 'o', some 'e']⟩ : FdTable Char) (fun _ => 0) ['n'] =
      (t', .ok fd) ∧ fd.toNat = 3 ∧ fget t' fd = some 'n' ∧
        FdTable.Gains ⟨[some 'i', some 'o', some 'e']⟩ t' fd.toNat 'n' :=
  (sendfd_recvfd (by decide)).2.1 _ _ 'n' [] (by decide) (.inl rfl)

end

end Tlpi.ScmFunctions
