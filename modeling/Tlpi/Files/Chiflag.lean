import Mathlib.Logic.Function.Basic
import Mathlib.Tactic.Basic

/-!
# Changing i-node flags (`ch15-files/chiflag.cpp`)

The mask of the attributes named in the first argument is built in `attr`, and the loop over the
files stores the new flags of each file in the same variable.
-/

namespace Tlpi.Chiflag

abbrev CString := List Char

/-- The flags of an i-node, an `int`. -/
abbrev Flags := BitVec 32

def FS_SECRM_FL : Flags := 0x00000001
def FS_UNRM_FL : Flags := 0x00000002
def FS_COMPR_FL : Flags := 0x00000004
def FS_SYNC_FL : Flags := 0x00000008
def FS_IMMUTABLE_FL : Flags := 0x00000010
def FS_APPEND_FL : Flags := 0x00000020
def FS_NODUMP_FL : Flags := 0x00000040
def FS_NOATIME_FL : Flags := 0x00000080
def FS_JOURNAL_DATA_FL : Flags := 0x00004000
def FS_NOTAIL_FL : Flags := 0x00008000
def FS_DIRSYNC_FL : Flags := 0x00010000
def FS_TOPDIR_FL : Flags := 0x00020000

def attribFlag : Char → Option Flags
  | 'a' => some FS_APPEND_FL
  | 'A' => some FS_NOATIME_FL
  | 'c' => some FS_COMPR_FL
  | 'd' => some FS_NODUMP_FL
  | 'D' => some FS_DIRSYNC_FL
  | 'i' => some FS_IMMUTABLE_FL
  | 'j' => some FS_JOURNAL_DATA_FL
  | 's' => some FS_SECRM_FL
  | 'S' => some FS_SYNC_FL
  | 't' => some FS_NOTAIL_FL
  | 'T' => some FS_TOPDIR_FL
  | 'u' => some FS_UNRM_FL
  | _ => none

/-- Build the bit mask from the attribute string; an unknown attribute is a usage error. -/
def parseAttribs (attr : Flags) : CString → Option Flags
  | [] => some attr
  | c :: p => (attribFlag c).bind fun flag => parseAttribs (attr ||| flag) p

inductive Operator where
  | add | remove | set
  deriving DecidableEq, Repr

def operatorOf : Char → Option Operator
  | '+' => some .add
  | '-' => some .remove
  | '=' => some .set
  | _ => none

/-- The flags that are set on a file with the flags `oldAttr`. -/
def Operator.apply (op : Operator) (oldAttr attr : Flags) : Flags :=
  match op with
  | .add => oldAttr ||| attr
  | .remove => oldAttr &&& ~~~attr
  | .set => attr

variable {ι : Type} [DecidableEq ι]

/-- A file on the command line, and how the calls for it end. -/
structure Arg (ι : Type) where
  name : String
  file : ι
  opened : Bool
  getflags : Bool
  setflags : Bool
  close : Bool

/-- A file whose flags were changed. -/
structure Change (ι : Type) where
  file : ι
  old : Flags
  new : Flags

/-- What a run of the loop leaves: the changes in their order, the flags of all files, the messages
of files that could not be opened, and that with which the program terminated early. -/
structure Run (ι : Type) where
  changes : List (Change ι)
  flags : ι → Flags
  errMsgs : List String
  errExit : Option String

/-- The loop over the files, with the variable `attr` and the flags of all files. -/
def loop (op : Operator) (attr : Flags) (flags : ι → Flags) : List (Arg ι) → Run ι
  | [] => ⟨[], flags, [], none⟩
  | a :: args =>
    if !a.opened then
      let r := loop op attr flags args
      { r with errMsgs := ("open: " ++ a.name) :: r.errMsgs }
    else if op ≠ .set ∧ !a.getflags then ⟨[], flags, [], some ("ioctl1: " ++ a.name)⟩
    else
      let oldAttr := flags a.file
      let attr := op.apply oldAttr attr
      if !a.setflags then ⟨[], flags, [], some ("ioctl2: " ++ a.name)⟩
      else
        let flags := Function.update flags a.file attr
        let change := ⟨a.file, oldAttr, attr⟩
        if !a.close then ⟨[change], flags, [], some "close"⟩
        else
          let r := loop op attr flags args
          { r with changes := change :: r.changes }

/-- The program with the first argument `c :: attribs`; `none` for a usage error. -/
def main (c : Char) (attribs : CString) (flags : ι → Flags) (args : List (Arg ι)) :
    Option (Run ι) :=
  if args = [] ∨ c :: attribs = "--help".toList then none
  else (operatorOf c).bind fun op => (parseAttribs 0 attribs).map fun attr => loop op attr flags args

/-! ### The mask -/

/-- The set of the attributes that are named. -/
def maskOf (attribs : CString) : Flags := (attribs.filterMap attribFlag).foldr (· ||| ·) 0

theorem parseAttribs_eq {attr mask : Flags} {attribs : CString}
    (h : parseAttribs attr attribs = some mask) : mask = attr ||| maskOf attribs := by
  induction attribs generalizing attr with
  | nil =>
    cases h
    exact BitVec.or_zero.symm
  | cons c p ih =>
    obtain ⟨flag, hflag, h⟩ := Option.bind_eq_some_iff.mp h
    rw [ih h, maskOf, maskOf, List.filterMap_cons_some hflag, List.foldr_cons, BitVec.or_assoc]

theorem getLsbD_maskOf (attribs : CString) (k : Nat) :
    (maskOf attribs).getLsbD k ↔ ∃ c ∈ attribs, ∃ flag, attribFlag c = some flag ∧ flag.getLsbD k := by
  induction attribs with
  | nil => simp [maskOf]
  | cons c p ih =>
    rw [maskOf] at ih ⊢
    cases hc : attribFlag c with
    | none =>
      rw [List.filterMap_cons_none hc, ih]
      simp [hc]
    | some flag =>
      rw [List.filterMap_cons_some hc, List.foldr_cons, BitVec.getLsbD_or, Bool.or_eq_true, ih]
      simp [hc]

/-! ### When one file does not disturb the next -/

/-- The flags `x` of a file do not change what is done to a file with the flags `y` that is the next
one to be processed. -/
def Harmless (op : Operator) (mask x y : Flags) : Prop :=
  match op with
  | .add => x &&& ~~~(y ||| mask) = 0
  | .remove => y &&& mask = 0 ∧ x &&& y &&& ~~~mask = 0
  | .set => True

/-- No file disturbs the one processed after it. -/
def Undisturbed (op : Operator) (mask : Flags) (flags : ι → Flags) : List ι → Prop
  | a :: b :: files =>
    let flags' := Function.update flags a (op.apply (flags a) mask)
    Harmless op mask (flags a) (flags' b) ∧ Undisturbed op mask flags' (b :: files)
  | _ => True

/-- The files that are processed: those that can be opened, up to the first call that fails. -/
def processed (op : Operator) : List (Arg ι) → List ι
  | [] => []
  | a :: args =>
    if !a.opened then processed op args
    else if op ≠ .set ∧ !a.getflags then []
    else if !a.setflags then []
    else if !a.close then [a.file]
    else a.file :: processed op args

/-- Each file is treated on its own: it is changed by the operator and the mask alone. -/
structure OnItsOwn (op : Operator) (mask : Flags) (flags : ι → Flags) (r : Run ι) : Prop where
  change : ∀ ch ∈ r.changes, ch.new = op.apply ch.old mask
  final : ∀ ch ∈ r.changes, r.flags ch.file = op.apply (flags ch.file) mask

theorem bits_ext_iff {x y : Flags} : x = y ↔ ∀ k < 32, x.getLsbD k = y.getLsbD k :=
  ⟨fun h _ _ => by rw [h], fun h => BitVec.eq_of_getLsbD_eq fun k hk => h k hk⟩

theorem apply_apply_iff {op : Operator} {mask x y : Flags} :
    op.apply y (op.apply x mask) = op.apply y mask ↔ Harmless op mask x y := by
  cases op with
  | add =>
    simp only [Operator.apply, Harmless, bits_ext_iff, BitVec.getLsbD_or, BitVec.getLsbD_and,
      BitVec.getLsbD_not]
    refine forall₂_congr fun k hk => ?_
    cases x.getLsbD k <;> cases y.getLsbD k <;> cases mask.getLsbD k <;> simp [hk]
  | remove =>
    simp only [Operator.apply, Harmless, bits_ext_iff, BitVec.getLsbD_and, BitVec.getLsbD_not,
      ← forall₂_and]
    refine forall₂_congr fun k hk => ?_
    cases x.getLsbD k <;> cases y.getLsbD k <;> cases mask.getLsbD k <;> simp [hk]
  | set => simp [Operator.apply, Harmless]

theorem apply_idem (op : Operator) (mask x : Flags) :
    op.apply (op.apply x mask) mask = op.apply x mask := by
  cases op with
  | add => rw [Operator.apply, Operator.apply, BitVec.or_assoc, BitVec.or_self]
  | remove => rw [Operator.apply, Operator.apply, BitVec.and_assoc, BitVec.and_self]
  | set => rfl

/-- The changes to a list of files, and the flags afterwards. -/
def chain (op : Operator) (attr : Flags) (flags : ι → Flags) :
    List ι → List (Change ι) × (ι → Flags)
  | [] => ([], flags)
  | a :: files =>
    let new := op.apply (flags a) attr
    let r := chain op new (Function.update flags a new) files
    (⟨a, flags a, new⟩ :: r.1, r.2)

theorem loop_eq_chain (op : Operator) (attr : Flags) (flags : ι → Flags) (args : List (Arg ι)) :
    ((loop op attr flags args).changes, (loop op attr flags args).flags) =
      chain op attr flags (processed op args) := by
  induction args generalizing attr flags with
  | nil => rfl
  | cons a args ih =>
    rw [loop, processed]
    split
    · exact ih attr flags
    split
    · rfl
    simp only
    split
    · rfl
    split
    · rfl
    · rw [chain, ← ih]

/-- Each file is changed as it should be exactly if the first one is and no file disturbs the one
after it. -/
theorem chain_iff (op : Operator) (mask attr : Flags) (flags : ι → Flags) (files : List ι) :
    (∀ ch ∈ (chain op attr flags files).1, ch.new = op.apply ch.old mask) ↔
      (∀ a ∈ files.head?, op.apply (flags a) attr = op.apply (flags a) mask) ∧
        Undisturbed op mask flags files := by
  induction files generalizing attr flags with
  | nil => simp [chain, Undisturbed]
  | cons a files ih =>
    rw [chain, List.forall_mem_cons, ih]
    simp only [List.head?_cons, Option.mem_some_iff, forall_eq']
    refine and_congr_right fun hnew => ?_
    rw [hnew]
    cases files with
    | nil => simp [Undisturbed]
    | cons b files =>
      simp only [List.head?_cons, Option.mem_some_iff, forall_eq', apply_apply_iff]
      rfl

/-- When each file is changed as it should be, it ends so, even if it stands in the list twice. -/
theorem chain_flags {op : Operator} {mask attr : Flags} {flags : ι → Flags} {files : List ι}
    (h : ∀ ch ∈ (chain op attr flags files).1, ch.new = op.apply ch.old mask) (f : ι) :
    (chain op attr flags files).2 f = if f ∈ files then op.apply (flags f) mask else flags f := by
  induction files generalizing attr flags with
  | nil => rfl
  | cons a files ih =>
    rw [chain, List.forall_mem_cons] at h
    rw [chain, ih h.2]
    simp only at h ⊢
    rw [h.1]
    rcases eq_or_ne f a with rfl | hne
    · simp [apply_idem]
    · simp [hne]

theorem mem_chain_file {op : Operator} {attr : Flags} {flags : ι → Flags} {files : List ι}
    {ch : Change ι} (h : ch ∈ (chain op attr flags files).1) : ch.file ∈ files := by
  induction files generalizing attr flags with
  | nil => cases h
  | cons a files ih =>
    rw [chain] at h
    rcases List.mem_cons.mp h with rfl | h
    · exact List.mem_cons_self
    · exact List.mem_cons_of_mem a (ih h)

theorem onItsOwn_iff (op : Operator) (mask : Flags) (flags : ι → Flags) (args : List (Arg ι)) :
    OnItsOwn op mask flags (loop op mask flags args) ↔
      Undisturbed op mask flags (processed op args) := by
  obtain ⟨hchanges, hflags⟩ := Prod.mk.inj (loop_eq_chain op mask flags args)
  have hiff := chain_iff op mask mask flags (processed op args)
  simp only [implies_true, true_and] at hiff
  rw [← hiff, ← hchanges]
  refine ⟨fun h => h.change, fun h => ⟨h, fun ch hch => ?_⟩⟩
  rw [hchanges] at h hch
  rw [hflags, chain_flags h, if_pos (mem_chain_file hch)]

/-- Unless there is a usage error, each file is treated on its own exactly if no file disturbs the
one processed after it. -/
theorem main_onItsOwn_iff {c : Char} {attribs : CString} {flags : ι → Flags} {args : List (Arg ι)}
    {op : Operator} {r : Run ι} (hop : operatorOf c = some op)
    (h : main c attribs flags args = some r) :
    (∀ k, (maskOf attribs).getLsbD k ↔
      ∃ a ∈ attribs, ∃ flag, attribFlag a = some flag ∧ flag.getLsbD k) ∧
    (OnItsOwn op (maskOf attribs) flags r ↔
      Undisturbed op (maskOf attribs) flags (processed op args)) := by
  refine ⟨getLsbD_maskOf attribs, ?_⟩
  simp only [main, hop, Option.bind_some, Option.ite_none_left_eq_some] at h
  obtain ⟨mask, hmask, rfl⟩ := Option.map_eq_some_iff.mp h.2
  have hzero : (0 : Flags) ||| maskOf attribs = maskOf attribs := BitVec.zero_or
  rw [parseAttribs_eq hmask, hzero]
  exact onItsOwn_iff op (maskOf attribs) flags args

/-- Two files that can be opened and changed. -/
def twoFiles : List (Arg Bool) :=
  [⟨"x", true, true, true, true, true⟩, ⟨"y", false, true, true, true, true⟩]

/-- The first file has the append flag, the second one none. -/
def appendFirst : Bool → Flags := fun b => if b then FS_APPEND_FL else 0

/-- With `+a` the second file only gets the flag that it is to get. -/
theorem main_onItsOwn_iff_twoFiles :
    ∃ r, main '+' "a".toList appendFirst twoFiles = some r ∧
      OnItsOwn .add (maskOf "a".toList) appendFirst r := by
  have hrun : main '+' "a".toList appendFirst twoFiles =
      some (loop .add (maskOf "a".toList) appendFirst twoFiles) := rfl
  have hundisturbed : Undisturbed .add (maskOf "a".toList) appendFirst [true, false] := by
    refine ⟨?_, trivial⟩
    rw [Harmless]
    decide
  exact ⟨_, hrun, (main_onItsOwn_iff rfl hrun).2.mpr hundisturbed⟩

/-- With `+d` the second file gets the append flag of the first. -/
theorem main_not_onItsOwn :
    ∃ r, main '+' "d".toList appendFirst twoFiles = some r ∧
      r.flags false = FS_APPEND_FL ||| FS_NODUMP_FL ∧
      ¬OnItsOwn .add (maskOf "d".toList) appendFirst r := by
  refine ⟨_, rfl, by decide, fun h => ?_⟩
  have hsecond := h.change ⟨false, 0, FS_APPEND_FL ||| FS_NODUMP_FL⟩ (.tail _ (.head _))
  exact absurd hsecond (by decide)

end Tlpi.Chiflag
