import Tlpi.Acl.AclParse
import Tlpi.Lib.Keyed

/-!
# Changing the ACL of a file (`acl/acl_update.c`)

The loop of `main` over the parsed entries, for one file: each entry is applied to the ACL that has
been read from the file, and the ACL is checked and stored after each of them. The functions of
`libacl` are modelled as POSIX.1e describes them; in which order an ACL has its entries is left to
the library.
-/

namespace Tlpi.Acl

open Ugid

/-- The tag type of an entry, with its qualifier if it has one. -/
inductive Who where
  | userObj | user (uid : Id) | groupObj | group (gid : Id) | mask | other
  deriving DecidableEq, Repr

/-- `acl_get_tag_type` -/
def Who.tag : Who → Tag
  | .userObj => .userObj
  | .user _ => .user
  | .groupObj => .groupObj
  | .group _ => .group
  | .mask => .mask
  | .other => .other

/-- `acl_get_qualifier` -/
def Who.qualifier : Who → Option Id
  | .user uid => some uid
  | .group gid => some gid
  | _ => none

structure AclEntry where
  who : Who
  perms : BitVec 32
  deriving DecidableEq, Repr

abbrev FileAcl := List AclEntry

/-- What the functions of `libacl` may choose, and whether they succeed. -/
structure Libacl where
  /-- The order of the entries after one has been added. -/
  arrange : FileAcl → FileAcl
  arrange_perm : ∀ acl, (arrange acl).Perm acl
  /-- `acl_valid` -/
  valid : FileAcl → Bool
  /-- Whether the call of `acl_set_file` for the entry with this number succeeds. -/
  setFile : Nat → FileAcl → Bool

/-- The options `-x` (else `-m`) and not `-n`. -/
structure Options where
  removeACL : Bool
  recalcMask : Bool

/-- Whether the loop of `findEntry` ends at the entry. -/
def isEntry (tag : Tag) (qual : Id) (e : AclEntry) : Bool :=
  if tag = e.who.tag then
    if tag = .user then e.who.qualifier = some qual
    else if tag = .group then e.who.qualifier = some qual
    else true
  else false

/-- The position of the entry, if there is one. -/
def findEntry (acl : FileAcl) (tag : Tag) (qual : Id) : Option Nat :=
  acl.findIdx? (isEntry tag qual)

/-- The permission set of an entry after `setPerms`. -/
def setPerms (perms : BitVec 32) : BitVec 32 :=
  let permset := 0
  let permset := if perms &&& ACL_READ ≠ 0 then permset ||| ACL_READ else permset
  let permset := if perms &&& ACL_WRITE ≠ 0 then permset ||| ACL_WRITE else permset
  if perms &&& ACL_EXECUTE ≠ 0 then permset ||| ACL_EXECUTE else permset

/-- What the tag type and the qualifier of a new entry are set to. -/
def newWho (tag : Tag) (qual : Id) : Who :=
  match tag with
  | .userObj => .userObj
  | .user => .user qual
  | .groupObj => .groupObj
  | .group => .group qual
  | .mask => .mask
  | .other => .other

/-- The union of the permissions of the entries in the group class. -/
def groupClass (acl : FileAcl) : BitVec 32 :=
  acl.foldl (fun perms e =>
    match e.who with
    | .user _ | .groupObj | .group _ => perms ||| e.perms
    | _ => perms) 0

section
variable (lib : Libacl) (opts : Options)

/-- `acl_calc_mask`: the mask entry is changed, or added if there is none. -/
def calcMask (acl : FileAcl) : FileAcl :=
  match findEntry acl .mask 0 with
  | some i => acl.modify i fun e => { e with perms := groupClass acl }
  | none => lib.arrange (acl ++ [⟨.mask, groupClass acl⟩])

/-- Delete the entry that `ace` names, or set its permissions. -/
def changeEntry (ace : AccessControlEntry) (acl : FileAcl) : FileAcl :=
  let entry := findEntry acl ace.tag ace.qual
  if opts.removeACL then
    match entry with
    | some i => acl.eraseIdx i
    | none => acl
  else
    -- the permissions have been given, since this is `-m`
    let perms := setPerms (ace.perms.getD 0)
    match entry with
    | some i => acl.modify i fun e => { e with perms }
    | none => lib.arrange (acl ++ [⟨newWho ace.tag ace.qual, perms⟩])

/-- Apply an entry to the ACL, and recalculate the mask entry if requested. -/
def applyEntry (ace : AccessControlEntry) (acl : FileAcl) : FileAcl :=
  let acl := changeEntry lib opts ace acl
  if opts.recalcMask then calcMask lib acl else acl

inductive Failure where
  | aclValid | aclSetFile
  deriving DecidableEq, Repr

/-- The ACL that is stored with the file, and the entry at which processing has ended in an error. -/
structure Outcome where
  stored : FileAcl
  error : Option (Nat × Failure)
  deriving DecidableEq

/-- The loop over the entries from the entry `en` on. -/
def updateFrom (en : Nat) (acl stored : FileAcl) : List AccessControlEntry → Outcome
  | [] => ⟨stored, none⟩
  | ace :: aclist =>
    let acl := applyEntry lib opts ace acl
    if lib.valid acl = false then ⟨stored, some (en, .aclValid)⟩
    else if lib.setFile en acl = false then ⟨stored, some (en, .aclSetFile)⟩
    else updateFrom (en + 1) acl acl aclist

/-- Process a file whose ACL is `acl`. -/
def updateFile (acl : FileAcl) (aclist : List AccessControlEntry) : Outcome :=
  updateFrom lib opts 0 acl acl aclist

/-- The ACL after the entries have been applied in turn. -/
def applyEntries (acl : FileAcl) (aclist : List AccessControlEntry) : FileAcl :=
  aclist.foldl (fun acl ace => applyEntry lib opts ace acl) acl
end

/-! ### What applying an entry does -/

/-- The tag type and the qualifier that an entry names. -/
def AccessControlEntry.who (ace : AccessControlEntry) : Who := newWho ace.tag ace.qual

/-- No two entries have the same tag type and qualifier. -/
abbrev Unique (acl : FileAcl) : Prop := UniqueKeys AclEntry.who acl

theorem isEntry_eq (tag : Tag) (qual : Id) (e : AclEntry) :
    isEntry tag qual e = decide (e.who = newWho tag qual) := by
  obtain ⟨who, perms⟩ := e
  cases tag <;> cases who <;> simp [isEntry, Who.tag, Who.qualifier, newWho]

theorem findEntry_eq (acl : FileAcl) (tag : Tag) (qual : Id) :
    findEntry acl tag qual = findKey AclEntry.who (newWho tag qual) acl := by
  rw [findEntry, findKey, funext (isEntry_eq tag qual)]

section
variable (lib : Libacl) (opts : Options) {acl : FileAcl}

/-- Changing or adding an entry. -/
theorem put_spec (h : Unique acl) (tag : Tag) (qual : Id) (perms : BitVec 32) :
    let acl' := match findEntry acl tag qual with
      | some i => acl.modify i fun e => { e with perms }
      | none => lib.arrange (acl ++ [⟨newWho tag qual, perms⟩])
    Unique acl' ∧ ∀ e, e ∈ acl' ↔
      e ∈ acl ∧ e.who ≠ newWho tag qual ∨ e = ⟨newWho tag qual, perms⟩ := by
  rw [findEntry_eq]
  cases hi : findKey AclEntry.who (newWho tag qual) acl with
  | some i => exact h.modify hi (fun c hc => by rw [← hc]) rfl
  | none =>
    have hother := findKey_eq_none.mp hi
    have hperm := lib.arrange_perm (acl ++ [⟨newWho tag qual, perms⟩])
    refine ⟨(h.append_singleton hother).perm hperm, fun e => ?_⟩
    rw [hperm.mem_iff, List.mem_append, List.mem_singleton]
    constructor
    · rintro (he | he)
      · exact .inl ⟨he, hother e he⟩
      · exact .inr he
    · rintro (⟨he, -⟩ | he)
      · exact .inl he
      · exact .inr he

theorem calcMask_spec (h : Unique acl) : Unique (calcMask lib acl) ∧ ∀ e, e ∈ calcMask lib acl ↔
    e ∈ acl ∧ e.who ≠ .mask ∨ e = ⟨.mask, groupClass acl⟩ :=
  put_spec lib h .mask 0 (groupClass acl)

/-- The entries that are exempt because the mask is recalculated. -/
def Options.Exempt (opts : Options) (w : Who) : Prop := opts.recalcMask ∧ w = .mask

theorem changeEntry_spec (h : Unique acl) (ace : AccessControlEntry) :
    Unique (changeEntry lib opts ace acl) ∧ ∀ e, e ∈ changeEntry lib opts ace acl ↔
      e ∈ acl ∧ e.who ≠ ace.who ∨
        opts.removeACL = false ∧ e = ⟨ace.who, setPerms (ace.perms.getD 0)⟩ := by
  unfold changeEntry
  cases hrem : opts.removeACL with
  | true =>
    simp only [if_true, findEntry_eq, Bool.true_eq_false, false_and, or_false]
    cases hi : findKey AclEntry.who (newWho ace.tag ace.qual) acl with
    | some i => exact h.eraseIdx hi
    | none => exact ⟨h, fun e => ⟨fun he => ⟨he, findKey_eq_none.mp hi e he⟩, fun he => he.1⟩⟩
  | false =>
    simp only [Bool.false_eq_true, if_false, true_and]
    exact put_spec lib h ace.tag ace.qual _

theorem applyEntry_spec (h : Unique acl) (ace : AccessControlEntry) :
    Unique (applyEntry lib opts ace acl) ∧ ∀ e, ¬opts.Exempt e.who →
      (e ∈ applyEntry lib opts ace acl ↔ e ∈ acl ∧ e.who ≠ ace.who ∨
        opts.removeACL = false ∧ e = ⟨ace.who, setPerms (ace.perms.getD 0)⟩) := by
  obtain ⟨huniq, hmem⟩ := changeEntry_spec lib opts h ace
  unfold applyEntry
  split
  · next hcalc =>
    obtain ⟨huniq', hmem'⟩ := calcMask_spec lib huniq
    refine ⟨huniq', fun e he => ?_⟩
    have hmask : e.who ≠ .mask := fun hw => he ⟨hcalc, hw⟩
    rw [hmem', ← hmem]
    constructor
    · rintro (⟨hin, -⟩ | rfl)
      · exact hin
      · exact absurd rfl hmask
    · exact fun hin => .inl ⟨hin, hmask⟩
  · exact ⟨huniq, fun e _ => hmem e⟩

/-- The permissions of the last entry that names `w`. -/
def lastPerms (aclist : List AccessControlEntry) (w : Who) : Option (BitVec 32) :=
  (aclist.filter (·.who = w)).getLast?.map fun ace => setPerms (ace.perms.getD 0)

theorem lastPerms_eq_none {aclist : List AccessControlEntry} {w : Who} :
    lastPerms aclist w = none ↔ ∀ ace ∈ aclist, ace.who ≠ w := by
  simp [lastPerms]

theorem lastPerms_cons (ace : AccessControlEntry) (aclist : List AccessControlEntry) (w : Who) :
    lastPerms (ace :: aclist) w =
      (lastPerms aclist w).or
        (if ace.who = w then some (setPerms (ace.perms.getD 0)) else none) := by
  by_cases hw : ace.who = w
  · cases hf : aclist.filter (·.who = w) with
    | nil => simp [lastPerms, hw, hf]
    | cons b l =>
      have hlast := List.getLast?_eq_some_getLast (List.cons_ne_nil b l)
      simp [lastPerms, hw, hf, hlast]
  · simp [lastPerms, hw]

/-- What a run over the entries leaves: what no entry names is kept, and what one names is deleted
or has the permissions of the last. -/
theorem applyEntries_spec (h : Unique acl) (aclist : List AccessControlEntry) :
    Unique (applyEntries lib opts acl aclist) ∧ ∀ e, ¬opts.Exempt e.who →
      (e ∈ applyEntries lib opts acl aclist ↔
        (∀ ace ∈ aclist, ace.who ≠ e.who) ∧ e ∈ acl ∨
          opts.removeACL = false ∧ lastPerms aclist e.who = some e.perms) := by
  induction aclist generalizing acl with
  | nil => exact ⟨h, fun e _ => by simp [applyEntries, lastPerms]⟩
  | cons ace aclist ih =>
    obtain ⟨huniq, hmem⟩ := applyEntry_spec lib opts h ace
    obtain ⟨huniq', hmem'⟩ := ih huniq
    refine ⟨huniq', fun e he => ?_⟩
    rw [applyEntries, List.foldl_cons]
    refine (hmem' e he).trans ?_
    rw [hmem e he, lastPerms_cons, List.forall_mem_cons]
    cases hlast : lastPerms aclist e.who with
    | some p =>
      have hnamed : ¬∀ ace ∈ aclist, ace.who ≠ e.who := by
        rw [← lastPerms_eq_none, hlast]
        exact nofun
      simp [hnamed]
    | none =>
      have hother := lastPerms_eq_none.mp hlast
      obtain ⟨who, perms⟩ := e
      by_cases hw : ace.who = who
      · subst hw
        simp only [ne_eq, not_true_eq_false, and_false, false_and, false_or, AclEntry.mk.injEq,
          true_and, if_true, Option.none_or, Option.some.injEq, reduceCtorEq, or_false]
        exact ⟨fun h => ⟨h.2.1, h.2.2.symm⟩, fun h => ⟨hother, h.1, h.2.symm⟩⟩
      · simp [hw, Ne.symm hw]

/-! ### Processing a file -/

variable (acl)

/-- The ACL with the entries up to the entry `k` applied is valid and can be stored; `en` is the
number of the first of the entries. -/
def Accepted (en : Nat) (aclist : List AccessControlEntry) (k : Nat) : Prop :=
  lib.valid (applyEntries lib opts acl (aclist.take (k + 1))) ∧
    lib.setFile (en + k) (applyEntries lib opts acl (aclist.take (k + 1)))

variable {acl}

theorem accepted_cons_succ {en k : Nat} {ace : AccessControlEntry}
    {aclist : List AccessControlEntry} :
    Accepted lib opts acl en (ace :: aclist) (k + 1) ↔
      Accepted lib opts (applyEntry lib opts ace acl) (en + 1) aclist k := by
  simp only [Accepted, List.take_succ_cons, applyEntries, List.foldl_cons,
    Nat.add_assoc, Nat.add_comm 1 k]

/-- A run ends at the first entry whose ACL is not accepted. -/
theorem updateFrom_spec (en : Nat) (stored : FileAcl) (aclist : List AccessControlEntry) :
    (∀ k < aclist.length, Accepted lib opts acl en aclist k) ∧
      updateFrom lib opts en acl stored aclist =
        ⟨if aclist = [] then stored else applyEntries lib opts acl aclist, none⟩ ∨
    ∃ k failure, k < aclist.length ∧ (∀ j < k, Accepted lib opts acl en aclist j) ∧
      ¬Accepted lib opts acl en aclist k ∧
      updateFrom lib opts en acl stored aclist =
        ⟨if k = 0 then stored else applyEntries lib opts acl (aclist.take k),
          some (en + k, failure)⟩ := by
  induction aclist generalizing en acl stored with
  | nil => exact .inl ⟨nofun, rfl⟩
  | cons ace aclist ih =>
    have hzero : Accepted lib opts acl en (ace :: aclist) 0 ↔
        lib.valid (applyEntry lib opts ace acl) ∧ lib.setFile en (applyEntry lib opts ace acl) :=
      .rfl
    rw [updateFrom]
    cases hvalid : lib.valid (applyEntry lib opts ace acl) with
    | false => exact .inr ⟨0, .aclValid, Nat.succ_pos _, nofun, by simp [hzero, hvalid], rfl⟩
    | true =>
      cases hset : lib.setFile en (applyEntry lib opts ace acl) with
      | false => exact .inr ⟨0, .aclSetFile, Nat.succ_pos _, nofun, by simp [hzero, hset], rfl⟩
      | true =>
        have hacc : Accepted lib opts acl en (ace :: aclist) 0 := hzero.mpr ⟨hvalid, hset⟩
        simp only [Bool.true_eq_false, if_false]
        obtain ⟨hall, heq⟩ | ⟨k, failure, hk, hbefore, hnot, heq⟩ :=
          @ih (applyEntry lib opts ace acl) (en + 1) (applyEntry lib opts ace acl)
        · refine .inl ⟨fun k hk => ?_, ?_⟩
          · cases k with
            | zero => exact hacc
            | succ k =>
              exact (accepted_cons_succ lib opts).mpr (hall k (Nat.lt_of_succ_lt_succ hk))
          · rw [heq, if_neg (List.cons_ne_nil ace aclist)]
            cases aclist <;> rfl
        · refine .inr ⟨k + 1, failure, Nat.succ_lt_succ hk, fun j hj => ?_, ?_, ?_⟩
          · cases j with
            | zero => exact hacc
            | succ j =>
              exact (accepted_cons_succ lib opts).mpr (hbefore j (Nat.lt_of_succ_lt_succ hj))
          · exact fun h => hnot ((accepted_cons_succ lib opts).mp h)
          · rw [heq, if_neg (Nat.succ_ne_zero k), Nat.add_assoc, Nat.add_comm 1 k]
            cases k <;> rfl

/-- The same for the whole run over a file. -/
theorem updateFile_spec (aclist : List AccessControlEntry) :
    (∀ k < aclist.length, Accepted lib opts acl 0 aclist k) ∧
      updateFile lib opts acl aclist = ⟨applyEntries lib opts acl aclist, none⟩ ∨
    ∃ k failure, k < aclist.length ∧ (∀ j < k, Accepted lib opts acl 0 aclist j) ∧
      ¬Accepted lib opts acl 0 aclist k ∧ updateFile lib opts acl aclist =
        ⟨applyEntries lib opts acl (aclist.take k), some (k, failure)⟩ := by
  obtain ⟨hall, heq⟩ | ⟨k, failure, hk, hbefore, hnot, heq⟩ :=
    updateFrom_spec lib opts 0 acl aclist
  · refine .inl ⟨hall, heq.trans ?_⟩
    cases aclist <;> rfl
  · refine .inr ⟨k, failure, hk, hbefore, hnot, heq.trans ?_⟩
    rw [Nat.zero_add]
    cases k <;> rfl

theorem stored_of_success {aclist : List AccessControlEntry}
    (h : (updateFile lib opts acl aclist).error = none) :
    (updateFile lib opts acl aclist).stored = applyEntries lib opts acl aclist := by
  obtain ⟨-, heq⟩ | ⟨k, failure, -, -, -, heq⟩ := updateFile_spec lib opts aclist
  · rw [heq]
  · rw [heq] at h
    cases h

/-- Processing succeeds exactly when the ACL after each entry is accepted, and stores the last of
these. If it fails at an entry, the file has the ACL with the entries before that one applied. -/
theorem updateFile_outcome (lib : Libacl) (opts : Options) (acl : FileAcl)
    (aclist : List AccessControlEntry) :
    ((updateFile lib opts acl aclist).error = none ↔
      ∀ k < aclist.length, Accepted lib opts acl 0 aclist k) ∧
    ((updateFile lib opts acl aclist).error = none →
      (updateFile lib opts acl aclist).stored = applyEntries lib opts acl aclist) ∧
    ∀ k failure, (updateFile lib opts acl aclist).error = some (k, failure) →
      k < aclist.length ∧ (∀ j < k, Accepted lib opts acl 0 aclist j) ∧
      ¬Accepted lib opts acl 0 aclist k ∧
      (updateFile lib opts acl aclist).stored = applyEntries lib opts acl (aclist.take k) := by
  refine ⟨?_, stored_of_success lib opts, fun k' failure' h => ?_⟩
  · obtain ⟨hall, heq⟩ | ⟨k, failure, hk, -, hnot, heq⟩ := updateFile_spec lib opts aclist
    · rw [heq]
      exact iff_of_true rfl hall
    · rw [heq]
      exact iff_of_false nofun fun h => hnot (h k hk)
  · obtain ⟨-, heq⟩ | ⟨k, failure, hk, hbefore, hnot, heq⟩ := updateFile_spec lib opts aclist
    · rw [heq] at h
      cases h
    · rw [heq] at h
      cases h
      exact ⟨hk, hbefore, hnot, by rw [heq]⟩

end

/-- `acl_valid`: the three required entries are there, no entry is there twice, and there is a mask
if a user or a group is named. -/
def aclValid (acl : FileAcl) : Bool :=
  let whos := acl.map AclEntry.who
  decide (whos.Nodup ∧ .userObj ∈ whos ∧ .groupObj ∈ whos ∧ .other ∈ whos ∧
    ((∃ w ∈ whos, w.tag = .user ∨ w.tag = .group) → .mask ∈ whos))

/-- A library that adds entries at the end, with no errors from `acl_set_file`. -/
def plainLibacl : Libacl where
  arrange := id
  arrange_perm := fun _ => .refl _
  valid := aclValid
  setFile _ _ := true

/-- The ACL of a file with the mode `rw-r--r--`. -/
def minimalAcl : FileAcl := [⟨.userObj, 6⟩, ⟨.groupObj, 4⟩, ⟨.other, 4⟩]

/-- With `-m -n`, the entries `o::-,u:7:r` fail at the second one and leave the first one stored,
and of the entries `m::r` and `u:7:r` only one order succeeds although both end in a valid ACL. -/
theorem updateFile_not_atomic :
    ¬((updateFile plainLibacl ⟨false, false⟩ minimalAcl
          [⟨.other, 0, some 0⟩, ⟨.user, 7, some 4⟩]).error ≠ none →
        (updateFile plainLibacl ⟨false, false⟩ minimalAcl
          [⟨.other, 0, some 0⟩, ⟨.user, 7, some 4⟩]).stored = minimalAcl) ∧
    ¬((updateFile plainLibacl ⟨false, false⟩ minimalAcl
          [⟨.user, 7, some 4⟩, ⟨.mask, 0, some 4⟩]).error = none ↔
        aclValid (applyEntries plainLibacl ⟨false, false⟩ minimalAcl
          [⟨.user, 7, some 4⟩, ⟨.mask, 0, some 4⟩])) ∧
    (updateFile plainLibacl ⟨false, false⟩ minimalAcl
      [⟨.mask, 0, some 4⟩, ⟨.user, 7, some 4⟩]).error = none := by
  decide

/-! ### Entries that have been parsed -/

theorem setPerms_permBits (p : CString) : setPerms (permBits p) = permBits p := by
  unfold permBits
  by_cases hr : 'r' ∈ p <;> by_cases hw : 'w' ∈ p <;> by_cases hx : 'x' ∈ p <;>
    simp only [hr, hw, hx, if_true, if_false] <;> rfl

/-- The permissions of an entry that has been parsed for `-m` are given, and set as they are. -/
theorem perms_of_parseACL {accounts : Accounts} {aclStr : CString} {n : Nat}
    {aclist : List AccessControlEntry} (h : parseACL accounts true aclStr = .ok (n, aclist)) :
    ∀ ace ∈ aclist, ∃ p, ace.perms = some p ∧ setPerms p = p := by
  obtain ⟨-, -, hlist⟩ := parseFrom_iff.mp h
  generalize aclStr.splitOn ',' = entries at hlist
  clear h
  induction hlist with
  | nil => exact nofun
  | cons hace _ ih =>
    refine List.forall_mem_cons.mpr ⟨?_, ih⟩
    obtain ⟨-, -, p, -, -, -, -, hp⟩ := hace
    exact ⟨permBits p, hp, setPerms_permBits p⟩

/-- The last of the entries that name `w`. -/
theorem exists_last {aclist : List AccessControlEntry} {w : Who}
    (h : ∃ ace ∈ aclist, ace.who = w) :
    ∃ ace ∈ aclist, (aclist.filter (·.who = w)).getLast? = some ace := by
  cases hlast : (aclist.filter (·.who = w)).getLast? with
  | none =>
    obtain ⟨ace, hace, hw⟩ := h
    rw [List.getLast?_eq_none_iff, List.filter_eq_nil_iff] at hlast
    exact absurd (decide_eq_true hw) (hlast ace hace)
  | some ace => exact ⟨ace, (List.mem_filter.mp (List.mem_of_getLast? hlast)).1, rfl⟩

/-- Processing a file changes exactly the entries that are named, apart from the mask if that is
recalculated. -/
theorem updateFile_exact {lib : Libacl} {opts : Options} {accounts : Accounts} {aclStr : CString}
    {n : Nat} {aclist : List AccessControlEntry} {acl : FileAcl} (hacl : Unique acl)
    (hparse : parseACL accounts (!opts.removeACL) aclStr = .ok (n, aclist))
    (hok : (updateFile lib opts acl aclist).error = none) :
    Unique (updateFile lib opts acl aclist).stored ∧
    (∀ w, (∃ ace ∈ aclist, ace.who = w) → ¬(opts.recalcMask ∧ w = .mask) →
      if opts.removeACL then ∀ e ∈ (updateFile lib opts acl aclist).stored, e.who ≠ w
      else ∃ ace p, (aclist.filter (·.who = w)).getLast? = some ace ∧ ace.perms = some p ∧
        (updateFile lib opts acl aclist).stored.filter (·.who = w) = [⟨w, p⟩]) ∧
    (∀ e : AclEntry, (∀ ace ∈ aclist, ace.who ≠ e.who) → ¬(opts.recalcMask ∧ e.who = .mask) →
      (e ∈ (updateFile lib opts acl aclist).stored ↔ e ∈ acl)) := by
  rw [stored_of_success lib opts hok]
  obtain ⟨huniq, hmem⟩ := applyEntries_spec lib opts hacl aclist
  refine ⟨huniq, fun w hw hexempt => ?_, fun e hother hexempt => ?_⟩
  · cases hrem : opts.removeACL with
    | true =>
      rw [if_pos rfl]
      rintro e he rfl
      rcases (hmem e hexempt).mp he with ⟨hother, -⟩ | ⟨hmod, -⟩
      · obtain ⟨ace, hace, hwho⟩ := hw
        exact hother ace hace hwho
      · rw [hrem] at hmod
        cases hmod
    | false =>
      rw [if_neg Bool.false_ne_true]
      rw [hrem] at hparse
      obtain ⟨ace, hace, hlast⟩ := exists_last hw
      obtain ⟨p, hp, hset⟩ := perms_of_parseACL hparse ace hace
      have hperms : lastPerms aclist w = some p := by
        rw [lastPerms, hlast, Option.map_some, hp, Option.getD_some, hset]
      have hin := (hmem ⟨w, p⟩ hexempt).mpr (.inr ⟨hrem, hperms⟩)
      exact ⟨ace, p, hlast, hp, huniq.filter_key hin⟩
  · rw [hmem e hexempt, lastPerms_eq_none.mpr hother]
    exact ⟨fun h => h.elim And.right fun h => (nomatch h.2), fun he => .inl ⟨hother, he⟩⟩

/-- With `-m`, the entries `o::-,o::rw` leave others with the permissions of the second one. -/
theorem updateFile_exact_minimal :
    (updateFile plainLibacl ⟨false, true⟩ minimalAcl
      [⟨.other, 0, some 0⟩, ⟨.other, 0, some 6⟩]).stored.filter (·.who = .other) =
        [⟨.other, 6⟩] := by
  have hparse : parseACL noAccounts true "o::-,o::rw".toList =
      .ok (2, [⟨.other, 0, some 0⟩, ⟨.other, 0, some 6⟩]) := by
    have hcut : cut ',' "o::-,o::rw".toList = some ("o::-".toList, "o::rw".toList) := by decide
    rw [parseACL, parseFrom_next (by decide) hcut, parseFrom_last (by decide) (by decide)]
    rfl
  have hacl : Unique minimalAcl := by
    rw [Unique, UniqueKeys]
    decide
  have hexact := @updateFile_exact plainLibacl ⟨false, true⟩ noAccounts _ _ _ minimalAcl hacl hparse
    (by decide)
  obtain ⟨ace, p, hlast, hp, hfilter⟩ := hexact.2.1 .other (by decide) (by decide)
  cases hlast
  cases hp
  exact hfilter

end Tlpi.Acl
