import Mathlib.Data.List.Basic
import Tlpi.Lib.CBuf
import Tlpi.Lib.LittleEndian

/-!
# Ancillary data

The control buffer of a message is a sequence of blocks, each of a header (`struct cmsghdr`), its
data and padding to a multiple of eight bytes. The macros are those of glibc for a 64-bit `size_t`,
where a buffer is memory from the address 0 on, and a header is given by its offset.
-/

namespace Tlpi.Cmsg

def sizeofCmsghdr : Nat := 16

def cmsgAlign (len : Nat) : Nat := (len + 7) % 2 ^ 64 / 8 * 8

def cmsgSpace (len : Nat) : Nat := cmsgAlign len + cmsgAlign sizeofCmsghdr

def cmsgLen (len : Nat) : Nat := cmsgAlign sizeofCmsghdr + len

/-- `CMSG_DATA()` -/
def cmsgData (cmsg : Nat) : Nat := cmsg + sizeofCmsghdr

/-! ### The fields of a header -/

def lenAt (mem : Mem) (cmsg : Nat) : Nat := leNat (mem.load cmsg 8)

def levelAt (mem : Mem) (cmsg : Nat) : BitVec 32 := BitVec.ofNat 32 (leNat (mem.load (cmsg + 8) 4))

def typeAt (mem : Mem) (cmsg : Nat) : BitVec 32 := BitVec.ofNat 32 (leNat (mem.load (cmsg + 12) 4))

/-! ### From header to header -/

def firsthdr (controllen : Nat) : Option Nat := if controllen ≥ sizeofCmsghdr then some 0 else none

/-- `__cmsg_nxthdr()` up to glibc 2.35, which looks at the length in the next header. -/
def nxthdrOld (mem : Mem) (controllen cmsg : Nat) : Option Nat :=
  if lenAt mem cmsg < sizeofCmsghdr then none
  else
    let next := cmsg + cmsgAlign (lenAt mem cmsg)
    if next + sizeofCmsghdr > controllen ∨ next + cmsgAlign (lenAt mem next) > controllen then none
    else some next

/-- `__cmsg_nxthdr()` from glibc 2.36 on. -/
def nxthdrNew (mem : Mem) (controllen cmsg : Nat) : Option Nat :=
  let sizeNeeded := sizeofCmsghdr + (8 - lenAt mem cmsg % 8) % 8
  if lenAt mem cmsg < sizeofCmsghdr then none
  else if controllen - cmsg < sizeNeeded ∨ controllen - cmsg - sizeNeeded < lenAt mem cmsg then none
  else some (cmsg + cmsgAlign (lenAt mem cmsg))

/-- The kernel's `__cmsg_nxthdr()`. -/
def nxthdrKernel (mem : Mem) (controllen cmsg : Nat) : Option Nat :=
  let next := cmsg + cmsgAlign (lenAt mem cmsg)
  if next + sizeofCmsghdr > controllen then none else some next

section
variable {σ ε : Type*}

/-- `for (cmsg = start; cmsg != NULL; cmsg = CMSG_NXTHDR(msg, cmsg)) body`, which the body may
leave; `none` if it is not over after `fuel` rounds. -/
def forEachHdr (nxt : Nat → Option Nat) (body : Nat → σ → Except ε σ) :
    Nat → Option Nat → σ → Option (Except ε σ)
  | _, none, s => some (.ok s)
  | 0, some _, _ => none
  | fuel + 1, some cmsg, s =>
    match body cmsg s with
    | .error e => some (.error e)
    | .ok s => forEachHdr nxt body fuel (nxt cmsg) s

end

/-! ### The blocks of a buffer -/

structure Block where
  level : BitVec 32
  type : BitVec 32
  data : List UInt8
  deriving DecidableEq, Repr

/-- A header and its data. -/
def Block.bytes (b : Block) : List UInt8 :=
  leBytes 8 (cmsgLen b.data.length) ++ (leBytes 4 b.level.toNat ++ (leBytes 4 b.type.toNat ++ b.data))

def Block.space (b : Block) : Nat := cmsgSpace b.data.length

structure BlockAt (mem : Mem) (cmsg : Nat) (b : Block) : Prop where
  small : b.data.length < 2 ^ 63
  len : lenAt mem cmsg = cmsgLen b.data.length
  level : levelAt mem cmsg = b.level
  type : typeAt mem cmsg = b.type
  data : mem.load (cmsgData cmsg) b.data.length = b.data

/-- From `off` to its end at `controllen`, a buffer is a sequence of blocks. -/
def Holds (mem : Mem) (controllen : Nat) : Nat → List Block → Prop
  | off, [] => off = controllen
  | off, b :: bs => BlockAt mem off b ∧ Holds mem controllen (off + b.space) bs

theorem cmsgAlign_sizeofCmsghdr : cmsgAlign sizeofCmsghdr = 16 := rfl

theorem cmsgAlign_cmsgLen {n : Nat} (h : n < 2 ^ 63) : cmsgAlign (cmsgLen n) = cmsgSpace n := by
  unfold cmsgSpace cmsgLen
  rw [cmsgAlign_sizeofCmsghdr]
  unfold cmsgAlign
  omega

theorem add_le_cmsgSpace {n : Nat} (h : n < 2 ^ 63) : sizeofCmsghdr + n ≤ cmsgSpace n := by
  unfold cmsgSpace
  rw [cmsgAlign_sizeofCmsghdr]
  unfold cmsgAlign sizeofCmsghdr
  omega

theorem Holds.le {mem : Mem} {controllen off : Nat} {bs : List Block}
    (h : Holds mem controllen off bs) : off ≤ controllen := by
  induction bs generalizing off with
  | nil => exact Nat.le_of_eq h
  | cons b bs ih => exact (Nat.le_add_right ..).trans (ih h.2)

/-- What the different versions of `CMSG_NXTHDR()` have in common. -/
structure LawfulNxthdr (nxt : Mem → Nat → Nat → Option Nat) : Prop where
  next : ∀ {mem controllen off b}, BlockAt mem off b →
    off + b.space + sizeofCmsghdr ≤ controllen →
    off + b.space + cmsgAlign (lenAt mem (off + b.space)) ≤ controllen →
    nxt mem controllen off = some (off + b.space)
  last : ∀ {mem controllen off b}, BlockAt mem off b → off + b.space = controllen →
    nxt mem controllen off = none

theorem BlockAt.le_lenAt {mem : Mem} {off : Nat} {b : Block} (h : BlockAt mem off b) :
    ¬lenAt mem off < sizeofCmsghdr := by
  rw [h.len]
  exact Nat.not_lt.mpr (Nat.le_add_right ..)

theorem BlockAt.cmsgAlign_lenAt {mem : Mem} {off : Nat} {b : Block} (h : BlockAt mem off b) :
    cmsgAlign (lenAt mem off) = b.space := by
  rw [h.len, cmsgAlign_cmsgLen h.small, Block.space]

theorem lawful_nxthdrOld : LawfulNxthdr nxthdrOld where
  next hb hhdr hlen := by
    rw [nxthdrOld, if_neg hb.le_lenAt, hb.cmsgAlign_lenAt, if_neg (by omega)]
  last hb heq := by
    rw [nxthdrOld, if_neg hb.le_lenAt, hb.cmsgAlign_lenAt, heq]
    exact if_pos (.inl (Nat.lt_add_of_pos_right (by decide)))

theorem lawful_nxthdrKernel : LawfulNxthdr nxthdrKernel where
  next hb hhdr _ := by
    rw [nxthdrKernel, hb.cmsgAlign_lenAt, if_neg (by omega)]
  last hb heq := by
    rw [nxthdrKernel, hb.cmsgAlign_lenAt, heq]
    exact if_pos (Nat.lt_add_of_pos_right (by decide))

/-- The length in a header and the padding behind the data make up the space of the block. -/
theorem BlockAt.lenAt_add_padding {mem : Mem} {off : Nat} {b : Block} (h : BlockAt mem off b) :
    lenAt mem off + (8 - lenAt mem off % 8) % 8 = b.space := by
  have hsmall := h.small
  rw [h.len, Block.space, cmsgSpace, cmsgLen, cmsgAlign_sizeofCmsghdr, cmsgAlign]
  omega

theorem lawful_nxthdrNew : LawfulNxthdr nxthdrNew where
  next {mem _ off _} hb hhdr _ := by
    have hpad := hb.lenAt_add_padding
    rw [nxthdrNew, if_neg hb.le_lenAt, if_neg (by omega), hb.cmsgAlign_lenAt]
  last {mem _ off _} hb heq := by
    have hpad := hb.lenAt_add_padding
    have hpos : sizeofCmsghdr = 16 := rfl
    rw [nxthdrNew, if_neg hb.le_lenAt, if_pos (by omega)]

section
variable {σ ε : Type*} {nxt : Mem → Nat → Nat → Option Nat} {mem : Mem} {controllen : Nat}

/-- The loop goes over the blocks of a buffer in their order and ends behind the last one. -/
theorem forEachHdr_eq_foldlM (hnxt : LawfulNxthdr nxt) {body : Nat → σ → Except ε σ}
    {f : σ → Block → Except ε σ} {bs : List Block} {b : Block} {off fuel : Nat}
    (hbody : ∀ cmsg, ∀ b' ∈ b :: bs, BlockAt mem cmsg b' → cmsg + b'.space ≤ controllen →
      ∀ s, body cmsg s = f s b')
    (h : Holds mem controllen off (b :: bs)) (hfuel : bs.length < fuel) (s : σ) :
    forEachHdr (nxt mem controllen) body fuel (some off) s = some ((b :: bs).foldlM f s) := by
  induction bs generalizing off b fuel s with
  | nil =>
    obtain ⟨fuel, rfl⟩ : ∃ n, fuel = n + 1 := Nat.exists_eq_succ_of_ne_zero (Nat.ne_zero_of_lt hfuel)
    rw [forEachHdr, hbody _ _ List.mem_cons_self h.1 h.2.le, List.foldlM_cons]
    cases f s b with
    | error e => rfl
    | ok s =>
      simp only [hnxt.last h.1 h.2]
      cases fuel <;> rfl
  | cons b' bs ih =>
    obtain ⟨fuel, rfl⟩ : ∃ n, fuel = n + 1 := Nat.exists_eq_succ_of_ne_zero (Nat.ne_zero_of_lt hfuel)
    have hb' := h.2.1
    have hle := h.2.2.le
    have hspace : sizeofCmsghdr + b'.data.length ≤ b'.space := add_le_cmsgSpace hb'.small
    have hnext : nxt mem controllen off = some (off + b.space) :=
      hnxt.next h.1 (by omega) (by rw [hb'.cmsgAlign_lenAt]; exact hle)
    rw [forEachHdr, hbody _ _ List.mem_cons_self h.1 h.2.le, List.foldlM_cons]
    cases f s b with
    | error e => rfl
    | ok s =>
      simp only [hnext]
      exact ih (fun cmsg b' hmem => hbody cmsg b' (List.mem_cons_of_mem _ hmem)) h.2
        (Nat.lt_of_succ_lt_succ hfuel) s

end

/-! ### Blocks that the kernel stores -/

/-- Append a block to a buffer of `cap` bytes; `none` where the kernel would truncate it. -/
def putCmsg (cap : Nat) (s : Mem × Nat) (b : Block) : Option (Mem × Nat) :=
  if s.2 + b.space ≤ cap then some (s.1.store s.2 b.bytes, s.2 + b.space) else none

theorem Block.length_bytes (b : Block) : b.bytes.length = sizeofCmsghdr + b.data.length := by
  simp only [Block.bytes, List.length_append, length_leBytes, sizeofCmsghdr]
  omega

theorem BlockAt.congr {mem mem' : Mem} {cmsg : Nat} {b : Block} (h : BlockAt mem cmsg b)
    (heq : ∀ a < cmsg + sizeofCmsghdr + b.data.length, mem' a = mem a) : BlockAt mem' cmsg b := by
  have hload {addr n : Nat} (hn : addr + n ≤ cmsg + sizeofCmsghdr + b.data.length) :
      mem'.load addr n = mem.load addr n := Mem.load_congr fun i hi => heq _ (by omega)
  have hsize : sizeofCmsghdr = 16 := rfl
  refine ⟨h.small, ?_, ?_, ?_, ?_⟩
  · rw [lenAt, hload (by omega)]
    exact h.len
  · rw [levelAt, hload (by omega)]
    exact h.level
  · rw [typeAt, hload (by omega)]
    exact h.type
  · rw [cmsgData, hload (by omega)]
    exact h.data

/-- The fields of a header from its bytes. -/
theorem BlockAt.of_load {mem : Mem} {cmsg : Nat} {b : Block} (hsmall : b.data.length < 2 ^ 63)
    (hlen : mem.load cmsg 8 = leBytes 8 (cmsgLen b.data.length))
    (hlevel : mem.load (cmsg + 8) 4 = leBytes 4 b.level.toNat)
    (htype : mem.load (cmsg + 12) 4 = leBytes 4 b.type.toNat)
    (hdata : mem.load (cmsgData cmsg) b.data.length = b.data) : BlockAt mem cmsg b := by
  refine ⟨hsmall, ?_, ?_, ?_, hdata⟩
  · have hlt : cmsgLen b.data.length < 256 ^ 8 := by
      rw [cmsgLen, cmsgAlign_sizeofCmsghdr]
      omega
    rw [lenAt, hlen, leNat_leBytes hlt]
  · rw [levelAt, hlevel]
    exact ofNat_leNat_leBytes (n := 4) b.level
  · rw [typeAt, htype]
    exact ofNat_leNat_leBytes (n := 4) b.type

theorem blockAt_store (mem : Mem) (cmsg : Nat) {b : Block} (h : b.data.length < 2 ^ 63) :
    BlockAt (mem.store cmsg b.bytes) cmsg b := by
  have hload := mem.load_store cmsg b.bytes
  have hsplit : b.bytes.length = 8 + (4 + (4 + b.data.length)) := by
    rw [b.length_bytes, sizeofCmsghdr]
    omega
  rw [hsplit, Mem.load_add, Mem.load_add, Mem.load_add, Block.bytes] at hload
  obtain ⟨hlen, hload⟩ := List.append_inj hload (by simp)
  obtain ⟨hlevel, hload⟩ := List.append_inj hload (by simp)
  obtain ⟨htype, hdata⟩ := List.append_inj hload (by simp)
  exact .of_load h hlen hlevel htype hdata

/-- Blocks are stored one behind the other if there is space for all of them. -/
theorem putCmsg_foldlM {cap off : Nat} {bs : List Block} (mem : Mem)
    (hsmall : ∀ b ∈ bs, b.data.length < 2 ^ 63) (h : off + (bs.map Block.space).sum ≤ cap) :
    ∃ mem', bs.foldlM (putCmsg cap) (mem, off) = some (mem', off + (bs.map Block.space).sum) ∧
      Holds mem' (off + (bs.map Block.space).sum) off bs ∧ ∀ a < off, mem' a = mem a := by
  induction bs generalizing mem off with
  | nil => exact ⟨mem, rfl, rfl, fun _ _ => rfl⟩
  | cons b bs ih =>
    rw [List.map_cons, List.sum_cons, ← Nat.add_assoc] at h ⊢
    have hb := hsmall b List.mem_cons_self
    have hfit : off + b.space ≤ cap := (Nat.le_add_right ..).trans h
    have hspace : sizeofCmsghdr + b.data.length ≤ b.space := add_le_cmsgSpace hb
    obtain ⟨mem', hput, hholds, hbelow⟩ := ih (mem.store off b.bytes)
      (fun b hmem => hsmall b (List.mem_cons_of_mem _ hmem)) h
    refine ⟨mem', ?_, ⟨?_, hholds⟩, fun a ha => ?_⟩
    · rw [List.foldlM_cons, putCmsg, if_pos hfit]
      exact hput
    · exact (blockAt_store mem off hb).congr fun a ha => hbelow a (by omega)
    · rw [hbelow a (by omega), Mem.store_of_notMem (.inl ha)]

end Tlpi.Cmsg
