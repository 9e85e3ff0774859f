import Mathlib.Data.List.Permutation
import Tlpi.Lib.CInt
import Tlpi.Lib.Cmsg

/-!
# Descriptors and credentials in one message (`sockets/scm_multi_send.c`, `sockets/scm_multi_recv.c`)

The sender lays out a block of descriptors and a block of credentials in its control buffer, and the
receiver goes over the headers in its own. Between them, the kernel reads the one buffer and writes
the other.
-/

namespace Tlpi.ScmMulti

open Cmsg

def SOL_SOCKET : BitVec 32 := 1
def SCM_RIGHTS : BitVec 32 := 1
def SCM_CREDENTIALS : BitVec 32 := 2

def MAX_FDS : Nat := 1024

def sizeofInt : Nat := 4
def sizeofUcred : Nat := 12

abbrev Fd := BitVec 32

/-- `struct ucred` -/
structure Ucred where
  pid : BitVec 32
  uid : BitVec 32
  gid : BitVec 32
  deriving DecidableEq, Repr

def Ucred.bytes (c : Ucred) : List UInt8 := intBytes [c.pid, c.uid, c.gid]

def Ucred.ofBytes (bs : List UInt8) : Ucred :=
  ⟨(intsOf bs).getD 0 0, (intsOf bs).getD 1 0, (intsOf bs).getD 2 0⟩

/-- The version of `CMSG_NXTHDR()` that a program is compiled with. -/
inductive Glibc where
  | upTo235
  | from236
  deriving DecidableEq, Repr

def Glibc.nxthdr : Glibc → Mem → Nat → Nat → Option Nat
  | upTo235 => nxthdrOld
  | from236 => nxthdrNew

/-! ### The sender -/

/-- Set the fields of the header `cmsgp`, and copy the data behind it. -/
def setBlock (controlMsgSize : Nat) (mem : Mem) (cmsgp : Nat) (level type : BitVec 32) (size : Nat)
    (data : List UInt8) : Option Mem := do
  let mem ← mem.storeIn controlMsgSize (cmsgp + 8) (leBytes 4 level.toNat)
  let mem ← mem.storeIn controlMsgSize (cmsgp + 12) (leBytes 4 type.toNat)
  let mem ← mem.storeIn controlMsgSize cmsgp (leBytes 8 (cmsgLen size))
  mem.storeIn controlMsgSize (cmsgData cmsgp) data

/-- The control buffer that is passed to `sendmsg()`, and its size; `none` if a write is out of its
bounds, or goes through a null pointer. -/
def sendControl (g : Glibc) (controlMsg : Mem) (fdList : List Fd) (creds : Ucred) :
    Option (Mem × Nat) := do
  let controlMsgSize := cmsgSpace (sizeofInt * fdList.length) + cmsgSpace sizeofUcred
  let mem ← controlMsg.storeIn controlMsgSize 0 (List.replicate controlMsgSize 0)
  let cmsgp ← firsthdr controlMsgSize
  let mem ← setBlock controlMsgSize mem cmsgp SOL_SOCKET SCM_RIGHTS (sizeofInt * fdList.length)
    (intBytes fdList)
  let cmsgp ← g.nxthdr mem controlMsgSize cmsgp
  let mem ← setBlock controlMsgSize mem cmsgp SOL_SOCKET SCM_CREDENTIALS sizeofUcred creds.bytes
  return (mem, controlMsgSize)

/-! ### The kernel -/

/-- The block of a header that is within the buffer. -/
def readBlock (mem : Mem) (controllen cmsg : Nat) (bs : List Block) : Except Unit (List Block) :=
  let len := lenAt mem cmsg
  if sizeofCmsghdr ≤ len ∧ len ≤ controllen - cmsg then
    .ok (bs ++ [⟨levelAt mem cmsg, typeAt mem cmsg,
      mem.load (cmsgData cmsg) (len - sizeofCmsghdr)⟩])
  else .error ()

/-- The blocks that `sendmsg()` takes from a control buffer. -/
def sendmsgBlocks (mem : Mem) (controllen : Nat) : Option (Except Unit (List Block)) :=
  forEachHdr (nxthdrKernel mem controllen) (readBlock mem controllen) controllen
    (firsthdr controllen) []

/-- What is delivered for a block: descriptors get a new number, which may depend on their place. -/
def deliver (renum : Nat → Fd → Fd) (b : Block) : Block :=
  if b.type = SCM_RIGHTS then { b with data := intBytes ((intsOf b.data).mapIdx renum) } else b

/-! ### The receiver -/

/-- The size of the receiver's control buffer. -/
def controlMsgSize : Nat := cmsgSpace (sizeofInt * MAX_FDS) + cmsgSpace sizeofUcred

inductive Seen where
  | rights (fds : List Fd)
  | credentials (creds : Ucred)
  deriving DecidableEq, Repr

inductive Exit where
  | fatal (msg : String)
  | errExit (msg : String)
  deriving DecidableEq, Repr

/-- One round of the loop over the headers. `io` is the call (`read` or `close`) that fails when a
descriptor's file is displayed, if one does. -/
def seeHdr (io : Fd → Option String) (mem : Mem) (cmsgp : Nat) (seen : List Seen) :
    Except (Exit × List Seen) (List Seen) :=
  let len := lenAt mem cmsgp
  if levelAt mem cmsgp ≠ SOL_SOCKET then .error (.fatal "cmsg_level != SOL_SOCKET", seen)
  else if typeAt mem cmsgp = SCM_RIGHTS then
    let fdCnt : Int := wrap 32 ((len + 2 ^ 64 - cmsgLen 0) % 2 ^ 64 / sizeofInt : Nat)
    -- a negative count is a huge one for `calloc()`
    if fdCnt < 0 then .error (.errExit "calloc", seen)
    else
      let fdList := intsOf (mem.load (cmsgData cmsgp) (fdCnt.toNat * sizeofInt))
      let seen := seen ++ [.rights fdList]
      match fdList.findSome? io with
      | some call => .error (.errExit call, seen)
      | none => .ok seen
  else if typeAt mem cmsgp = SCM_CREDENTIALS then
    if len ≠ cmsgLen sizeofUcred then .error (.fatal "cmsg data has incorrect size", seen)
    else .ok (seen ++ [.credentials (.ofBytes (mem.load (cmsgData cmsgp) sizeofUcred))])
  else .error (.fatal ("Bad cmsg_type (" ++ toString (typeAt mem cmsgp).toInt ++ ")"), seen)

/-- The loop over the headers; `none` if it is not over after `fuel` rounds. -/
def seeAll (g : Glibc) (io : Fd → Option String) (mem : Mem) (controllen fuel : Nat) :
    Option (Except (Exit × List Seen) (List Seen)) :=
  forEachHdr (g.nxthdr mem controllen) (seeHdr io mem) fuel (firsthdr controllen) []

/-! ### What is sent -/

def rightsBlock (fds : List Fd) : Block := ⟨SOL_SOCKET, SCM_RIGHTS, intBytes fds⟩

def credsBlock (creds : Ucred) : Block := ⟨SOL_SOCKET, SCM_CREDENTIALS, creds.bytes⟩

theorem Glibc.lawful (g : Glibc) : LawfulNxthdr g.nxthdr := by
  cases g with
  | upTo235 => exact lawful_nxthdrOld
  | from236 => exact lawful_nxthdrNew

/-- A block that fits is written where it belongs, and nothing else is. -/
theorem setBlock_spec (size cmsgp : Nat) (b : Block) (mem : Mem) (hsmall : b.data.length < 2 ^ 63)
    (hfit : cmsgp + b.space ≤ size) :
    ∃ mem', setBlock size mem cmsgp b.level b.type b.data.length b.data = some mem' ∧
      BlockAt mem' cmsgp b ∧ ∀ a, a < cmsgp ∨ cmsgp + b.space ≤ a → mem' a = mem a := by
  have hspace : sizeofCmsghdr + b.data.length ≤ b.space := add_le_cmsgSpace hsmall
  have hhdr : sizeofCmsghdr = 16 := rfl
  have hdata : cmsgData cmsgp = cmsgp + 16 := rfl
  have hset : setBlock size mem cmsgp b.level b.type b.data.length b.data =
      some ((((mem.store (cmsgp + 8) (leBytes 4 b.level.toNat)).store (cmsgp + 12)
        (leBytes 4 b.type.toNat)).store cmsgp (leBytes 8 (cmsgLen b.data.length))).store
        (cmsgData cmsgp) b.data) := by
    simp only [setBlock, Option.bind_eq_bind]
    rw [Mem.storeIn_eq_some (by simp; omega), Option.bind_some,
      Mem.storeIn_eq_some (by simp; omega), Option.bind_some,
      Mem.storeIn_eq_some (by simp; omega), Option.bind_some, Mem.storeIn_eq_some (by omega)]
  refine ⟨_, hset, ?_, fun a ha => ?_⟩
  · refine .of_load hsmall ?_ ?_ ?_ (Mem.load_store ..)
    · rw [Mem.load_store_of_disjoint (by omega)]
      exact Mem.load_store _ _ (leBytes 8 _)
    · rw [Mem.load_store_of_disjoint (by omega), Mem.load_store_of_disjoint (by simp),
        Mem.load_store_of_disjoint (by omega)]
      exact Mem.load_store _ _ (leBytes 4 _)
    · rw [Mem.load_store_of_disjoint (by omega), Mem.load_store_of_disjoint (by simp)]
      exact Mem.load_store _ _ (leBytes 4 _)
  · rw [Mem.store_of_notMem (by omega), Mem.store_of_notMem (by simp; omega),
      Mem.store_of_notMem (by simp; omega), Mem.store_of_notMem (by simp; omega)]

theorem length_creds_bytes (creds : Ucred) : creds.bytes.length = sizeofUcred :=
  length_intBytes [creds.pid, creds.uid, creds.gid]

theorem lenAt_eq_zero {mem : Mem} {cmsg : Nat} (h : ∀ i < 8, mem (cmsg + i) = 0) :
    lenAt mem cmsg = 0 := by
  have hload : mem.load cmsg 8 = List.replicate 8 0 :=
    List.eq_replicate_iff.mpr ⟨mem.length_load .., fun b hb => by
      obtain ⟨i, hi, rfl⟩ := List.mem_map.mp hb
      exact h i (List.mem_range.mp hi)⟩
  rw [lenAt, hload]
  rfl

theorem length_rights_lt {fds : List Fd} (h : fds.length ≤ MAX_FDS) :
    (rightsBlock fds).data.length < 2 ^ 63 := by
  rw [rightsBlock, length_intBytes]
  unfold MAX_FDS at h
  omega

theorem length_creds_lt (creds : Ucred) : (credsBlock creds).data.length < 2 ^ 63 := by
  rw [credsBlock, length_creds_bytes, sizeofUcred]
  decide

/-- The sender writes within its buffer, which then holds the two blocks. -/
theorem sendControl_holds {fds : List Fd} (g : Glibc) (mem : Mem) (creds : Ucred)
    (hmax : fds.length ≤ MAX_FDS) :
    ∃ mem', sendControl g mem fds creds =
        some (mem', (rightsBlock fds).space + (credsBlock creds).space) ∧
      Holds mem' ((rightsBlock fds).space + (credsBlock creds).space) 0
        [rightsBlock fds, credsBlock creds] := by
  have hrights := length_rights_lt hmax
  have hcreds := length_creds_lt creds
  have hlen : (rightsBlock fds).data.length = sizeofInt * fds.length := length_intBytes fds
  have hlen' : (credsBlock creds).data.length = sizeofUcred := length_creds_bytes creds
  have hspace : sizeofCmsghdr + _ ≤ (credsBlock creds).space := add_le_cmsgSpace hcreds
  have hhdr : sizeofCmsghdr = 16 := rfl
  have hsize : cmsgSpace (sizeofInt * fds.length) + cmsgSpace sizeofUcred =
      (rightsBlock fds).space + (credsBlock creds).space := by
    rw [Block.space, Block.space, hlen, hlen']
  generalize hS : (rightsBlock fds).space + (credsBlock creds).space = size at hsize
  have hzero : ∀ a < size, mem.store 0 (List.replicate size 0) a = 0 := by
    intro a ha
    simp [Mem.store, ha]
  obtain ⟨mem1, hset, hat, hkeep⟩ := setBlock_spec size 0 (rightsBlock fds)
    (mem.store 0 (List.replicate size 0)) hrights (by omega)
  -- the second header is still zero when `CMSG_NXTHDR()` looks at it
  have hlenAt : lenAt mem1 (0 + (rightsBlock fds).space) = 0 := by
    refine lenAt_eq_zero fun i hi => ?_
    rw [hkeep _ (by omega), hzero _ (by omega)]
  have hnext : g.nxthdr mem1 size 0 = some (0 + (rightsBlock fds).space) :=
    g.lawful.next hat (by omega) (by rw [hlenAt, show cmsgAlign 0 = 0 from rfl]; omega)
  obtain ⟨mem2, hset', hat', hkeep'⟩ := setBlock_spec size
    (0 + (rightsBlock fds).space) (credsBlock creds) mem1 hcreds (by omega)
  rw [hlen] at hset
  rw [hlen'] at hset'
  refine ⟨mem2, ?_, ?_, hat', by rw [← hS, Nat.zero_add]; rfl⟩
  · have hfirst : firsthdr size = some 0 := if_pos (by omega)
    simp only [sendControl, hsize, Option.bind_eq_bind]
    rw [Mem.storeIn_eq_some (by simp), Option.bind_some, hfirst, Option.bind_some]
    change (setBlock size _ 0 (rightsBlock fds).level (rightsBlock fds).type _
      (rightsBlock fds).data).bind _ = _
    rw [hset, Option.bind_some, hnext, Option.bind_some]
    change (setBlock size _ _ (credsBlock creds).level (credsBlock creds).type _
      (credsBlock creds).data).bind _ = _
    rw [hset']
    rfl
  · have hspace' : sizeofCmsghdr + _ ≤ (rightsBlock fds).space := add_le_cmsgSpace hrights
    exact hat.congr fun a ha => hkeep' a (by omega)

/-- The kernel finds a block where one is. -/
theorem readBlock_eq {mem : Mem} {controllen cmsg : Nat} {b : Block} (h : BlockAt mem cmsg b)
    (hle : cmsg + b.space ≤ controllen) (bs : List Block) :
    readBlock mem controllen cmsg bs = .ok (bs ++ [b]) := by
  have hspace : sizeofCmsghdr + b.data.length ≤ b.space := add_le_cmsgSpace h.small
  have hlen : lenAt mem cmsg = sizeofCmsghdr + b.data.length := h.len
  simp only [readBlock, hlen]
  rw [if_pos (by omega), Nat.add_sub_cancel_left, h.data, h.level, h.type]

theorem sendmsgBlocks_eq {mem : Mem} {controllen : Nat} {b b' : Block}
    (h : Holds mem controllen 0 [b, b']) :
    sendmsgBlocks mem controllen = some (.ok [b, b']) := by
  have hspace : sizeofCmsghdr + b.data.length ≤ b.space := add_le_cmsgSpace h.1.small
  have hle := h.2.le
  have hhdr : sizeofCmsghdr = 16 := rfl
  have hfirst : firsthdr controllen = some 0 := if_pos (by omega)
  rw [sendmsgBlocks, hfirst]
  exact forEachHdr_eq_foldlM lawful_nxthdrKernel (f := fun bs b => .ok (bs ++ [b]))
    (fun _ _ _ hb hle bs => readBlock_eq hb hle bs) h (by simp; omega) []

theorem rightsBlock_type (fds : List Fd) : (rightsBlock fds).type = SCM_RIGHTS := rfl

theorem intsOf_rightsBlock (fds : List Fd) : intsOf (rightsBlock fds).data = fds :=
  intsOf_intBytes fds

theorem deliver_rightsBlock (renum : Nat → Fd → Fd) (fds : List Fd) :
    deliver renum (rightsBlock fds) = rightsBlock (fds.mapIdx renum) := by
  rw [deliver, if_pos (rightsBlock_type fds), intsOf_rightsBlock]
  rfl

theorem credsBlock_type_ne (creds : Ucred) : (credsBlock creds).type ≠ SCM_RIGHTS := by
  show SCM_CREDENTIALS ≠ SCM_RIGHTS
  decide

theorem deliver_credsBlock (renum : Nat → Fd → Fd) (creds : Ucred) :
    deliver renum (credsBlock creds) = credsBlock creds :=
  if_neg (credsBlock_type_ne creds)

/-! ### What is received -/

/-- A round of the loop over the headers, at one of the two blocks. -/
def seeBlock (io : Fd → Option String) (seen : List Seen) (b : Block) :
    Except (Exit × List Seen) (List Seen) :=
  if b.type = SCM_RIGHTS then
    match (intsOf b.data).findSome? io with
    | some call => .error (.errExit call, seen ++ [.rights (intsOf b.data)])
    | none => .ok (seen ++ [.rights (intsOf b.data)])
  else .ok (seen ++ [.credentials (.ofBytes b.data)])

theorem seeBlock_rightsBlock (io : Fd → Option String) (seen : List Seen) (fds : List Fd) :
    seeBlock io seen (rightsBlock fds) =
      match fds.findSome? io with
      | some call => .error (.errExit call, seen ++ [.rights fds])
      | none => .ok (seen ++ [.rights fds]) := by
  rw [seeBlock, if_pos (rightsBlock_type fds), intsOf_rightsBlock]

theorem seeBlock_credsBlock (io : Fd → Option String) (seen : List Seen) (creds : Ucred) :
    seeBlock io seen (credsBlock creds) = .ok (seen ++ [.credentials creds]) := by
  have hdata : Ucred.ofBytes (credsBlock creds).data = creds := by
    rw [credsBlock, Ucred.ofBytes, Ucred.bytes, intsOf_intBytes]
    rfl
  rw [seeBlock, if_neg (credsBlock_type_ne creds), hdata]

theorem seeHdr_rightsBlock {mem : Mem} {cmsgp : Nat} {fds : List Fd}
    (h : BlockAt mem cmsgp (rightsBlock fds)) (hmax : fds.length ≤ MAX_FDS)
    (io : Fd → Option String) (seen : List Seen) :
    seeHdr io mem cmsgp seen = seeBlock io seen (rightsBlock fds) := by
  have hlevel : levelAt mem cmsgp = SOL_SOCKET := h.level
  have htype : typeAt mem cmsgp = SCM_RIGHTS := h.type
  have hlen : lenAt mem cmsgp = 16 + 4 * fds.length := by
    rw [h.len, rightsBlock, length_intBytes]
    rfl
  have hzero : cmsgLen 0 = 16 := rfl
  have hcnt : wrap 32 ((lenAt mem cmsgp + 2 ^ 64 - cmsgLen 0) % 2 ^ 64 / sizeofInt : Nat) =
      fds.length := by
    unfold MAX_FDS at hmax
    have hdiv : (lenAt mem cmsgp + 2 ^ 64 - cmsgLen 0) % 2 ^ 64 / sizeofInt = fds.length := by
      unfold sizeofInt
      omega
    rw [hdiv]
    exact wrap_natCast_iff.mpr (by omega)
  have hload : mem.load (cmsgData cmsgp) (fds.length * sizeofInt) = intBytes fds := by
    have hdata := h.data
    rwa [rightsBlock, length_intBytes, Nat.mul_comm] at hdata
  rw [seeHdr, if_neg (not_not_intro hlevel), if_pos htype]
  simp only [hcnt]
  rw [if_neg (Int.not_lt.mpr (Int.natCast_nonneg _)), Int.toNat_natCast, hload, intsOf_intBytes,
    seeBlock_rightsBlock]

theorem seeHdr_credsBlock {mem : Mem} {cmsgp : Nat} {creds : Ucred}
    (h : BlockAt mem cmsgp (credsBlock creds)) (io : Fd → Option String) (seen : List Seen) :
    seeHdr io mem cmsgp seen = seeBlock io seen (credsBlock creds) := by
  have hlevel : levelAt mem cmsgp = SOL_SOCKET := h.level
  have htype : typeAt mem cmsgp = SCM_CREDENTIALS := h.type
  have hlen : lenAt mem cmsgp = cmsgLen sizeofUcred := by
    rw [h.len, credsBlock, length_creds_bytes]
  have hdata := h.data
  rw [show (credsBlock creds).data.length = sizeofUcred from length_creds_bytes creds] at hdata
  rw [seeHdr, if_neg (not_not_intro hlevel), if_neg (by rw [htype]; decide), if_pos htype,
    if_neg (not_not_intro hlen), hdata, seeBlock, if_neg (credsBlock_type_ne creds)]

/-- The receiver sees the blocks in the order in which they are in its buffer. -/
theorem seeAll_eq {g : Glibc} {mem : Mem} {controllen fuel : Nat} {b b' : Block}
    (h : Holds mem controllen 0 [b, b']) (hfuel : 2 ≤ fuel) {io : Fd → Option String}
    (hsee : ∀ cmsgp, ∀ d ∈ [b, b'], BlockAt mem cmsgp d → ∀ seen,
      seeHdr io mem cmsgp seen = seeBlock io seen d) :
    seeAll g io mem controllen fuel = some ([b, b'].foldlM (seeBlock io) []) := by
  have hspace : sizeofCmsghdr + b.data.length ≤ b.space := add_le_cmsgSpace h.1.small
  have hle := h.2.le
  have hfirst : firsthdr controllen = some 0 := if_pos (by omega)
  rw [seeAll, hfirst]
  exact forEachHdr_eq_foldlM g.lawful (fun cmsgp d hd hat _ => hsee cmsgp d hd hat) h hfuel []

/-- The receiver ends its loop with each of the blocks seen once, unless a file cannot be displayed:
there it terminates, with the descriptors seen and no block twice. -/
structure SeesBoth (io : Fd → Option String) (fds : List Fd) (creds : Ucred)
    (r : Option (Except (Exit × List Seen) (List Seen))) : Prop where
  complete : (∀ fd ∈ fds, io fd = none) →
    ∃ seen, r = some (.ok seen) ∧ seen.Perm [.rights fds, .credentials creds]
  stopped : ∀ call, fds.findSome? io = some call → ∃ seen, r = some (.error (.errExit call, seen)) ∧
    .rights fds ∈ seen ∧ seen.Subperm [.rights fds, .credentials creds]

theorem SeesBoth.of_findSome? {io : Fd → Option String} {fds : List Fd} {creds : Ucred}
    {r : Except (Exit × List Seen) (List Seen)} {seen seen' : List Seen}
    (hr : r = match fds.findSome? io with
      | some call => .error (.errExit call, seen')
      | none => .ok seen)
    (hseen : seen.Perm [.rights fds, .credentials creds]) (hmem : .rights fds ∈ seen')
    (hseen' : seen'.Subperm [.rights fds, .credentials creds]) : SeesBoth io fds creds (some r) := by
  refine ⟨fun hio => ?_, fun call hcall => ?_⟩
  · rw [List.findSome?_eq_none_iff.mpr hio] at hr
    exact ⟨seen, congrArg some hr, hseen⟩
  · rw [hcall] at hr
    exact ⟨seen', congrArg some hr, hmem, hseen'⟩

theorem seesBoth_rights_first (io : Fd → Option String) (fds : List Fd) (creds : Ucred) :
    SeesBoth io fds creds (some ([rightsBlock fds, credsBlock creds].foldlM (seeBlock io) [])) := by
  have hsee : [rightsBlock fds, credsBlock creds].foldlM (seeBlock io) [] =
      match fds.findSome? io with
      | some call => .error (.errExit call, [.rights fds])
      | none => .ok [.rights fds, .credentials creds] := by
    simp only [List.foldlM_cons, seeBlock_rightsBlock]
    cases fds.findSome? io with
    | none => exact congrArg (· >>= pure) (seeBlock_credsBlock io [.rights fds] creds)
    | some call => rfl
  exact .of_findSome? hsee (.refl _) List.mem_cons_self (List.sublist_append_left _ [_]).subperm

theorem seesBoth_creds_first (io : Fd → Option String) (fds : List Fd) (creds : Ucred) :
    SeesBoth io fds creds (some ([credsBlock creds, rightsBlock fds].foldlM (seeBlock io) [])) := by
  have hswap : [Seen.credentials creds, .rights fds].Perm [.rights fds, .credentials creds] := .swap ..
  have hsee : [credsBlock creds, rightsBlock fds].foldlM (seeBlock io) [] =
      match fds.findSome? io with
      | some call => .error (.errExit call, [.credentials creds, .rights fds])
      | none => .ok [.credentials creds, .rights fds] := by
    rw [List.foldlM_cons, seeBlock_credsBlock]
    refine (congrArg (· >>= pure) (seeBlock_rightsBlock io [.credentials creds] fds)).trans ?_
    cases fds.findSome? io <;> rfl
  exact .of_findSome? hsee hswap (by simp) hswap.subperm

theorem seesBoth_of_holds {g : Glibc} {mem : Mem} {controllen fuel : Nat} {fds : List Fd}
    {creds : Ucred} {blocks : List Block} (hmax : fds.length ≤ MAX_FDS)
    (hperm : blocks.Perm [rightsBlock fds, credsBlock creds]) (h : Holds mem controllen 0 blocks)
    (hfuel : 2 ≤ fuel) (io : Fd → Option String) :
    SeesBoth io fds creds (seeAll g io mem controllen fuel) := by
  have hsee (cmsgp : Nat) (d : Block) (hd : d = rightsBlock fds ∨ d = credsBlock creds)
      (hat : BlockAt mem cmsgp d) (seen : List Seen) :
      seeHdr io mem cmsgp seen = seeBlock io seen d := by
    obtain rfl | rfl := hd
    · exact seeHdr_rightsBlock hat hmax io seen
    · exact seeHdr_credsBlock hat io seen
  obtain rfl | rfl := List.perm_pair.mp hperm
  · rw [seeAll_eq h hfuel fun cmsgp d hd => hsee cmsgp d (by simpa using hd)]
    exact seesBoth_rights_first io fds creds
  · rw [seeAll_eq h hfuel fun cmsgp d hd => hsee cmsgp d (by simpa [or_comm] using hd)]
    exact seesBoth_creds_first io fds creds

/-- The receiver's buffer has space for the two blocks. -/
theorem space_le_controlMsgSize {fds : List Fd} (h : fds.length ≤ MAX_FDS) (creds : Ucred) :
    (rightsBlock fds).space + (credsBlock creds).space ≤ controlMsgSize := by
  have hmono : cmsgSpace (4 * fds.length) ≤ cmsgSpace (4 * MAX_FDS) := by
    unfold MAX_FDS at h ⊢
    unfold cmsgSpace cmsgAlign
    omega
  have hcreds : (credsBlock creds).space = cmsgSpace sizeofUcred :=
    congrArg cmsgSpace (length_creds_bytes creds)
  rw [hcreds, controlMsgSize, Block.space, rightsBlock, length_intBytes]
  exact Nat.add_le_add_right hmono _

/-- Whatever the order in which the kernel delivers the two blocks, the receiver sees the descriptors
and the credentials that were sent. -/
theorem scmMulti_roundTrip {fds : List Fd} (hmax : fds.length ≤ MAX_FDS)
    (creds : Ucred) (g g' : Glibc) (mem mem' : Mem) :
    ∃ sent len, sendControl g mem fds creds = some (sent, len) ∧
      sendmsgBlocks sent len = some (.ok [rightsBlock fds, credsBlock creds]) ∧
      ∀ renum (blocks : List Block),
        blocks.Perm ([rightsBlock fds, credsBlock creds].map (deliver renum)) →
        ∃ got len', blocks.foldlM (putCmsg controlMsgSize) (mem', 0) = some (got, len') ∧
          ∀ io fuel, 2 ≤ fuel →
            SeesBoth io (fds.mapIdx renum) creds (seeAll g' io got len' fuel) := by
  obtain ⟨sent, hsend, hsent⟩ := sendControl_holds g mem creds hmax
  refine ⟨sent, _, hsend, sendmsgBlocks_eq hsent, fun renum blocks hperm => ?_⟩
  have hlen : (fds.mapIdx renum).length ≤ MAX_FDS := by rwa [List.length_mapIdx]
  rw [List.map_cons, List.map_cons, List.map_nil, deliver_rightsBlock, deliver_credsBlock] at hperm
  have hsum : (blocks.map Block.space).sum =
      (rightsBlock (fds.mapIdx renum)).space + (credsBlock creds).space :=
    (hperm.map _).sum_nat.trans (by simp)
  have hsmall : ∀ b ∈ blocks, b.data.length < 2 ^ 63 := by
    intro b hb
    have hb := hperm.mem_iff.mp hb
    simp only [List.mem_cons, List.not_mem_nil, or_false] at hb
    obtain rfl | rfl := hb
    · exact length_rights_lt hlen
    · exact length_creds_lt creds
  have hfit : 0 + (blocks.map Block.space).sum ≤ controlMsgSize := by
    rw [Nat.zero_add, hsum]
    exact space_le_controlMsgSize hlen creds
  obtain ⟨got, hput, hholds, -⟩ := putCmsg_foldlM mem' hsmall hfit
  exact ⟨got, _, hput, fun io fuel hfuel => seesBoth_of_holds hlen hperm hholds hfuel io⟩

/-- Two descriptors, which become 7 and 8, with the blocks in the order of the kernel. -/
theorem scmMulti_roundTrip_two :
    ∃ sent len, sendControl .upTo235 (fun _ => 255) [3, 4] ⟨10, 20, 30⟩ = some (sent, len) ∧
      sendmsgBlocks sent len = some (.ok [rightsBlock [3, 4], credsBlock ⟨10, 20, 30⟩]) ∧
      ∃ got len', [credsBlock ⟨10, 20, 30⟩, rightsBlock [7, 8]].foldlM (putCmsg controlMsgSize)
          (fun _ => 255, 0) = some (got, len') ∧
        SeesBoth (fun _ => none) [7, 8] ⟨10, 20, 30⟩ (seeAll .from236 (fun _ => none) got len' 2) := by
  obtain ⟨sent, len, hsend, hread, hrecv⟩ := scmMulti_roundTrip
    (show ([3, 4] : List Fd).length ≤ MAX_FDS by decide) ⟨10, 20, 30⟩ .upTo235 .from236 (fun _ => 255) fun _ => 255
  obtain ⟨got, len', hput, hsees⟩ := hrecv (fun i _ => 7 + i)
    [credsBlock ⟨10, 20, 30⟩, rightsBlock [7, 8]] (.swap ..)
  exact ⟨sent, len, hsend, hread, got, len', hput, hsees (fun _ => none) 2 le_rfl⟩

end Tlpi.ScmMulti
