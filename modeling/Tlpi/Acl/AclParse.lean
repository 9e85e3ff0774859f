import Mathlib.Data.List.Forall2
import Tlpi.Lib.Bits
import Tlpi.Lib.Cut
import Tlpi.Lib.Post
import Tlpi.Users.UgidFunctions

/-!
# The parser of `acl_update` (`acl/acl_update.c`)

`parseACL` cuts the string at its commas, and `parseEntrySpec` cuts each entry at its first two
colons. `Denotes` is the grammar of an entry and what it stands for.
-/

namespace Tlpi.Acl

open Ugid

inductive Tag where
  | userObj | user | groupObj | group | mask | other
  deriving DecidableEq, Repr

def ACL_READ : BitVec 32 := 4
def ACL_WRITE : BitVec 32 := 2
def ACL_EXECUTE : BitVec 32 := 1

def MAX_ENTRIES : Nat := 10000

/-- `struct AccessControlEntry`; the permissions are not set when none are given. -/
structure AccessControlEntry where
  tag : Tag
  qual : Id
  perms : Option (BitVec 32)
  deriving DecidableEq, Repr

inductive ParseError where
  | missingColon (entryStr : CString)
  | permsGiven
  | permsMissing
  | badTag (tag : CString)
  | badUser (qual : CString)
  | badGroup (qual : CString)
  | badPermission (c : Char)
  | tooMany
  deriving DecidableEq, Repr

/-- What is printed on the standard error. -/
def ParseError.message : ParseError → String
  | .missingColon entryStr => "Missing initial colon in ACL entry: " ++ String.ofList entryStr ++ "\n"
  | .permsGiven => "Cannot specify permissions here\n"
  | .permsMissing => "Must specify permissions\n"
  | .badTag tag => "Bad tag: " ++ String.ofList tag ++ "\n"
  | .badUser qual => "Bad user ID: " ++ String.ofList qual ++ "\n"
  | .badGroup qual => "Bad group ID: " ++ String.ofList qual ++ "\n"
  | .badPermission c => "Bad character in permissions string: " ++ String.singleton c ++ "\n"
  | .tooMany => "Too many entries in ACL\n"

/-- The tag type, depending on the tag string and the presence of a qualifier. -/
def parseTag (tagStr : CString) (hasQual : Bool) : Except ParseError Tag :=
  if tagStr = "u".toList ∨ tagStr = "user".toList then .ok (if hasQual then .user else .userObj)
  else if tagStr = "g".toList ∨ tagStr = "group".toList then
    .ok (if hasQual then .group else .groupObj)
  else if tagStr = "o".toList ∨ tagStr = "other".toList then .ok .other
  else if tagStr = "m".toList ∨ tagStr = "mask".toList then .ok .mask
  else .error (.badTag tagStr)

/-- For `ACL_USER` and `ACL_GROUP` tags, extract a UID or GID from the qualifier. -/
def parseQual (accounts : Accounts) (tag : Tag) (qual : CString) : Except ParseError Id :=
  match tag with
  | .user =>
    let id := userIdFromName accounts qual
    if id = badId then .error (.badUser qual) else .ok id
  | .group =>
    let id := groupIdFromName accounts qual
    if id = badId then .error (.badGroup qual) else .ok id
  | _ => .ok 0

/-- The loop over the permissions string. -/
def parsePerms (perms : BitVec 32) : CString → Except ParseError (BitVec 32)
  | [] => .ok perms
  | c :: p =>
    if c = 'r' then parsePerms (perms ||| ACL_READ) p
    else if c = 'w' then parsePerms (perms ||| ACL_WRITE) p
    else if c = 'x' then parsePerms (perms ||| ACL_EXECUTE) p
    else if c = '-' then parsePerms perms p
    else .error (.badPermission c)

def parseEntrySpec (accounts : Accounts) (permsReqd : Bool) (entryStr : CString) :
    Except ParseError AccessControlEntry := do
  match cut ':' entryStr with
  | none => .error (.missingColon entryStr)
  | some (tagStr, rest) =>
    let hasQual := rest ≠ [] ∧ rest.head? ≠ some ':'
    -- the qualifier, and what stands behind the second colon if there is one
    let (qual, permStr) := (cut ':' rest).getD (rest, [])
    let hasPerms := permStr ≠ []
    if hasPerms ∧ ¬permsReqd then .error .permsGiven
    else if ¬hasPerms ∧ permsReqd then .error .permsMissing
    else
      let tag ← parseTag tagStr hasQual
      let id ← parseQual accounts tag qual
      if hasPerms then
        let perms ← parsePerms 0 permStr
        return ⟨tag, id, some perms⟩
      else return ⟨tag, id, none⟩

/-- The loop of `parseACL` from the entry `n` on: the number of entries in all, and the entries
from there on. -/
def parseFrom (accounts : Accounts) (permsReqd : Bool) (n : Nat) (nextEntry : CString) :
    Except ParseError (Nat × List AccessControlEntry) :=
  if n ≥ MAX_ENTRIES then .error .tooMany
  else
    match _h : cut ',' nextEntry with
    | none => do
      let ace ← parseEntrySpec accounts permsReqd nextEntry
      return (n + 1, [ace])
    | some (entryStr, rest) => do
      let ace ← parseEntrySpec accounts permsReqd entryStr
      let (m, aclist) ← parseFrom accounts permsReqd (n + 1) rest
      return (m, ace :: aclist)
termination_by nextEntry.length
decreasing_by exact length_lt_of_cut_eq_some _h

/-- The number of entries that is returned, and the entries. -/
def parseACL (accounts : Accounts) (permsReqd : Bool) (aclStr : CString) :
    Except ParseError (Nat × List AccessControlEntry) :=
  parseFrom accounts permsReqd 0 aclStr

/-! ### The grammar -/

/-- What a tag string and a qualifier stand for. A qualifier after the tags of others and of the
mask is accepted, and has no meaning. -/
inductive Names (accounts : Accounts) : CString → CString → Tag → Id → Prop
  | userObj {t} (ht : t = "u".toList ∨ t = "user".toList) : Names accounts t [] .userObj 0
  | user {t q} (ht : t = "u".toList ∨ t = "user".toList) (hq : q ≠ [])
      (hid : userIdFromName accounts q ≠ badId) :
      Names accounts t q .user (userIdFromName accounts q)
  | groupObj {t} (ht : t = "g".toList ∨ t = "group".toList) : Names accounts t [] .groupObj 0
  | group {t q} (ht : t = "g".toList ∨ t = "group".toList) (hq : q ≠ [])
      (hid : groupIdFromName accounts q ≠ badId) :
      Names accounts t q .group (groupIdFromName accounts q)
  | other {t q} (ht : t = "o".toList ∨ t = "other".toList) : Names accounts t q .other 0
  | mask {t q} (ht : t = "m".toList ∨ t = "mask".toList) : Names accounts t q .mask 0

/-- The permissions that a string over `-rwx` stands for. -/
def permBits (p : CString) : BitVec 32 :=
  (if 'r' ∈ p then ACL_READ else 0) ||| (if 'w' ∈ p then ACL_WRITE else 0) |||
    (if 'x' ∈ p then ACL_EXECUTE else 0)

/-- The fields of a string `tag:[qualifier][:[perms]]`. -/
def Fields (s tagStr q p : CString) : Prop :=
  (s = tagStr ++ ':' :: q ∧ p = [] ∨ s = tagStr ++ ':' :: (q ++ ':' :: p)) ∧ ':' ∉ q

/-- A permissions string is present exactly when it is required. -/
def PermsDenote (permsReqd : Bool) (p : CString) (perms : Option (BitVec 32)) : Prop :=
  if permsReqd then p ≠ [] ∧ (∀ c ∈ p, c ∈ "-rwx".toList) ∧ perms = some (permBits p)
  else p = [] ∧ perms = none

/-- The string is an entry that stands for `ace`. -/
def Denotes (accounts : Accounts) (permsReqd : Bool) (s : CString) (ace : AccessControlEntry) :
    Prop :=
  ∃ tagStr q p, Fields s tagStr q p ∧ Names accounts tagStr q ace.tag ace.qual ∧
    PermsDenote permsReqd p ace.perms

theorem Names.colon_notMem {accounts : Accounts} {t q : CString} {tag : Tag} {id : Id}
    (h : Names accounts t q tag id) : ':' ∉ t := by
  cases h with
  | userObj ht | user ht | groupObj ht | group ht | other ht | mask ht =>
    rcases ht with rfl | rfl <;> decide

theorem parseQual_user_iff {accounts : Accounts} {q : CString} {id : Id} :
    parseQual accounts .user q = .ok id ↔
      id = userIdFromName accounts q ∧ userIdFromName accounts q ≠ badId := by
  by_cases h : userIdFromName accounts q = badId <;> simp [parseQual, h, eq_comm]

theorem parseQual_group_iff {accounts : Accounts} {q : CString} {id : Id} :
    parseQual accounts .group q = .ok id ↔
      id = groupIdFromName accounts q ∧ groupIdFromName accounts q ≠ badId := by
  by_cases h : groupIdFromName accounts q = badId <;> simp [parseQual, h, eq_comm]

/-- The tag and the qualifier are parsed as the grammar says. -/
theorem parseWho_iff {accounts : Accounts} {t q : CString} {tag : Tag} {id : Id} :
    (parseTag t (q ≠ []) = .ok tag ∧ parseQual accounts tag q = .ok id) ↔
      Names accounts t q tag id := by
  constructor
  · rintro ⟨htag, hid⟩
    have hqual {named obj : Tag} (h : Except.ok (if q ≠ [] then named else obj) =
        (.ok tag : Except ParseError Tag)) : q ≠ [] ∧ tag = named ∨ q = [] ∧ tag = obj := by
      by_cases hq : q = [] <;> simp_all
    unfold parseTag at htag
    split at htag
    · next ht =>
      obtain ⟨hq, rfl⟩ | ⟨rfl, rfl⟩ := hqual (by simpa using htag)
      · obtain ⟨rfl, hne⟩ := parseQual_user_iff.mp hid
        exact .user ht hq hne
      · cases hid
        exact .userObj ht
    split at htag
    · next ht =>
      obtain ⟨hq, rfl⟩ | ⟨rfl, rfl⟩ := hqual (by simpa using htag)
      · obtain ⟨rfl, hne⟩ := parseQual_group_iff.mp hid
        exact .group ht hq hne
      · cases hid
        exact .groupObj ht
    split at htag
    · next ht =>
      cases htag
      cases hid
      exact .other ht
    split at htag
    · next ht =>
      cases htag
      cases hid
      exact .mask ht
    · cases htag
  · intro h
    cases h with
    | userObj ht => rcases ht with rfl | rfl <;> exact ⟨rfl, rfl⟩
    | user ht hq hid =>
      exact ⟨by rcases ht with rfl | rfl <;> simp [parseTag, hq],
        parseQual_user_iff.mpr ⟨rfl, hid⟩⟩
    | groupObj ht => rcases ht with rfl | rfl <;> exact ⟨rfl, rfl⟩
    | group ht hq hid =>
      exact ⟨by rcases ht with rfl | rfl <;> simp [parseTag, hq],
        parseQual_group_iff.mpr ⟨rfl, hid⟩⟩
    | other ht => rcases ht with rfl | rfl <;> exact ⟨rfl, rfl⟩
    | mask ht => rcases ht with rfl | rfl <;> exact ⟨rfl, rfl⟩

theorem permBits_cons (c : Char) (p : CString) :
    permBits (c :: p) = permBits [c] ||| permBits p := by
  simp only [permBits, List.mem_cons, List.not_mem_nil, or_false, ite_or_bits]
  ac_rfl

theorem parsePerms_cons (perms : BitVec 32) (c : Char) (p : CString) :
    parsePerms perms (c :: p) =
      if c ∈ "-rwx".toList then parsePerms (perms ||| permBits [c]) p
      else .error (.badPermission c) := by
  by_cases hr : c = 'r'
  · subst hr; rfl
  by_cases hw : c = 'w'
  · subst hw; rfl
  by_cases hx : c = 'x'
  · subst hx; rfl
  by_cases hd : c = '-'
  · subst hd
    have hzero : perms ||| permBits ['-'] = perms := BitVec.or_zero
    rw [hzero]
    rfl
  · simp [parsePerms, hr, hw, hx, hd]

/-- The permissions string is parsed as the grammar says. -/
theorem parsePerms_iff {perms v : BitVec 32} {p : CString} :
    parsePerms perms p = .ok v ↔ (∀ c ∈ p, c ∈ "-rwx".toList) ∧ v = perms ||| permBits p := by
  induction p generalizing perms with
  | nil =>
    have hnil : perms ||| permBits [] = perms := BitVec.or_zero
    rw [hnil, parsePerms, Except.ok.injEq]
    simp [eq_comm]
  | cons c p ih =>
    rw [parsePerms_cons, List.forall_mem_cons, permBits_cons c p, ← BitVec.or_assoc]
    split
    · next hc =>
      rw [ih]
      exact ⟨fun h => ⟨⟨hc, h.1⟩, h.2⟩, fun h => ⟨h.1.2, h.2⟩⟩
    · next hc => exact ⟨nofun, fun h => absurd h.1.1 hc⟩

/-- The qualifier and the permissions string behind the first colon. -/
theorem cut_getD_iff {rest q p : CString} :
    (cut ':' rest).getD (rest, []) = (q, p) ↔
      (rest = q ∧ p = [] ∨ rest = q ++ ':' :: p) ∧ ':' ∉ q := by
  cases h : cut ':' rest with
  | none =>
    have hrest := cut_eq_none.mp h
    rw [Option.getD_none, Prod.mk.injEq]
    constructor
    · rintro ⟨rfl, rfl⟩
      exact ⟨.inl ⟨rfl, rfl⟩, hrest⟩
    · rintro ⟨⟨rfl, rfl⟩ | rfl, hq⟩
      · exact ⟨rfl, rfl⟩
      · simp at hrest
  | some r =>
    obtain ⟨x, y⟩ := r
    obtain ⟨rfl, hx⟩ := cut_eq_some.mp h
    rw [Option.getD_some, Prod.mk.injEq]
    constructor
    · rintro ⟨rfl, rfl⟩
      exact ⟨.inr rfl, hx⟩
    · rintro ⟨⟨rfl, rfl⟩ | heq, hq⟩
      · simp at hq
      · have hcut := cut_append hq (y := p)
        rw [← heq, cut_append hx, Option.some.injEq, Prod.mk.injEq] at hcut
        exact hcut

/-- The two cuts find the fields. -/
theorem Fields.cut {s t q p : CString} (h : Fields s t q p) (ht : ':' ∉ t) :
    ∃ rest, cut ':' s = some (t, rest) ∧ (cut ':' rest).getD (rest, []) = (q, p) := by
  obtain ⟨⟨rfl, rfl⟩ | rfl, hq⟩ := h
  · exact ⟨q, cut_append ht, cut_getD_iff.mpr ⟨.inl ⟨rfl, rfl⟩, hq⟩⟩
  · exact ⟨q ++ ':' :: p, cut_append ht, cut_getD_iff.mpr ⟨.inr rfl, hq⟩⟩

/-- A qualifier is present when something stands before the second colon. -/
theorem hasQual_iff {rest q p : CString} (h : (cut ':' rest).getD (rest, []) = (q, p)) :
    (rest ≠ [] ∧ rest.head? ≠ some ':') ↔ q ≠ [] := by
  obtain ⟨hrest, hq⟩ := cut_getD_iff.mp h
  cases q with
  | nil => rcases hrest with ⟨rfl, -⟩ | rfl <;> simp
  | cons c q =>
    have hc : c ≠ ':' := fun hc => hq (by simp [hc])
    rcases hrest with ⟨rfl, -⟩ | rfl <;> simp [hc]

/-- The entry is parsed as the grammar says, once it has been cut. -/
theorem parseEntrySpec_of_cut {accounts : Accounts} {permsReqd : Bool} {s t rest q p : CString}
    {ace : AccessControlEntry} (hs : cut ':' s = some (t, rest))
    (hrest : (cut ':' rest).getD (rest, []) = (q, p)) :
    parseEntrySpec accounts permsReqd s = .ok ace ↔
      Names accounts t q ace.tag ace.qual ∧ PermsDenote permsReqd p ace.perms := by
  obtain ⟨tag, qual, perms⟩ := ace
  simp only [parseEntrySpec, hs, hrest, decide_eq_decide.mpr (hasQual_iff hrest),
    ← parseWho_iff]
  by_cases hp : p = []
  · cases permsReqd with
    | true => simp [hp, PermsDenote]
    | false =>
      rw [if_neg fun h => h.1 hp, if_neg fun h => Bool.false_ne_true h.2, PermsDenote,
        if_neg Bool.false_ne_true]
      simp only [if_neg (not_not.mpr hp), bind_eq_ok_iff]
      constructor
      · rintro ⟨tag', htag, id, hid, heq⟩
        cases heq
        exact ⟨⟨htag, hid⟩, hp, rfl⟩
      · rintro ⟨⟨htag, hid⟩, -, rfl⟩
        exact ⟨tag, htag, qual, hid, rfl⟩
  · cases permsReqd with
    | false => simp [hp, PermsDenote]
    | true =>
      rw [if_neg fun h => h.2 rfl, if_neg fun h => h.1 hp, PermsDenote, if_pos rfl]
      simp only [if_pos hp, bind_eq_ok_iff, parsePerms_iff]
      constructor
      · rintro ⟨tag', htag, id, hid, bits, ⟨hover, rfl⟩, heq⟩
        cases heq
        exact ⟨⟨htag, hid⟩, hp, hover, congrArg some (BitVec.zero_or)⟩
      · rintro ⟨⟨htag, hid⟩, -, hover, rfl⟩
        exact ⟨tag, htag, qual, hid, permBits p, ⟨hover, BitVec.zero_or.symm⟩, rfl⟩

/-- An entry is accepted exactly when it is in the grammar, with what it stands for. -/
theorem parseEntrySpec_iff {accounts : Accounts} {permsReqd : Bool} {s : CString}
    {ace : AccessControlEntry} :
    parseEntrySpec accounts permsReqd s = .ok ace ↔ Denotes accounts permsReqd s ace := by
  constructor
  · intro h
    cases hs : cut ':' s with
    | none =>
      rw [parseEntrySpec, hs] at h
      cases h
    | some r =>
      obtain ⟨t, rest⟩ := r
      cases hrest : (cut ':' rest).getD (rest, []) with
      | mk q p =>
        obtain ⟨hnames, hperms⟩ := (parseEntrySpec_of_cut hs hrest).mp h
        obtain ⟨rfl, -⟩ := cut_eq_some.mp hs
        obtain ⟨hfields, hq⟩ := cut_getD_iff.mp hrest
        refine ⟨t, q, p, ⟨?_, hq⟩, hnames, hperms⟩
        rcases hfields with ⟨rfl, rfl⟩ | rfl
        · exact .inl ⟨rfl, rfl⟩
        · exact .inr rfl
  · rintro ⟨t, q, p, hfields, hnames, hperms⟩
    obtain ⟨rest, hs, hrest⟩ := hfields.cut hnames.colon_notMem
    exact (parseEntrySpec_of_cut hs hrest).mpr ⟨hnames, hperms⟩

theorem parseFrom_last {accounts : Accounts} {permsReqd : Bool} {n : Nat} {s : CString}
    (hn : ¬n ≥ MAX_ENTRIES) (hcut : cut ',' s = none) :
    parseFrom accounts permsReqd n s = do
      let ace ← parseEntrySpec accounts permsReqd s
      return (n + 1, [ace]) := by
  rw [parseFrom, if_neg hn]
  split
  · rfl
  · next h =>
    rw [hcut] at h
    cases h

theorem parseFrom_next {accounts : Accounts} {permsReqd : Bool} {n : Nat} {s e rest : CString}
    (hn : ¬n ≥ MAX_ENTRIES) (hcut : cut ',' s = some (e, rest)) :
    parseFrom accounts permsReqd n s = do
      let ace ← parseEntrySpec accounts permsReqd e
      let (m, aclist) ← parseFrom accounts permsReqd (n + 1) rest
      return (m, ace :: aclist) := by
  rw [parseFrom, if_neg hn]
  split
  · next h =>
    rw [hcut] at h
    cases h
  · next h =>
    rw [hcut] at h
    cases h
    rfl

/-- The entries behind the entry `n` are parsed one by one. -/
theorem parseFrom_iff {accounts : Accounts} {permsReqd : Bool} {n m : Nat} {s : CString}
    {aclist : List AccessControlEntry} :
    parseFrom accounts permsReqd n s = .ok (m, aclist) ↔
      m = n + (s.splitOn ',').length ∧ m ≤ MAX_ENTRIES ∧
        List.Forall₂ (Denotes accounts permsReqd) (s.splitOn ',') aclist := by
  refine fieldsLoop_iff (fun n s r hn => ?_) (fun n s r hn hcut => ?_)
    (fun n s e rest r hn hcut => ?_)
  · rw [parseFrom, if_pos hn]
    exact nofun
  · rw [parseFrom_last (not_le.mpr hn) hcut, bind_eq_ok_iff]
    simp only [parseEntrySpec_iff, pure, Except.pure, Except.ok.injEq, eq_comm (a := r)]
  · rw [parseFrom_next (not_le.mpr hn) hcut]
    simp only [bind_eq_ok_iff, parseEntrySpec_iff, pure, Except.pure, Except.ok.injEq,
      eq_comm (a := r)]

/-- The parser accepts exactly the comma-separated lists of at most `MAX_ENTRIES` entries, and
returns their number and what they stand for. -/
theorem parseACL_iff (accounts : Accounts) (permsReqd : Bool) (aclStr : CString) (m : Nat)
    (aclist : List AccessControlEntry) :
    parseACL accounts permsReqd aclStr = .ok (m, aclist) ↔
      ∃ entries : List CString, aclStr = [','].intercalate entries ∧ (∀ e ∈ entries, ',' ∉ e) ∧
        1 ≤ entries.length ∧ entries.length ≤ MAX_ENTRIES ∧ m = entries.length ∧
        List.Forall₂ (Denotes accounts permsReqd) entries aclist := by
  rw [parseACL, parseFrom_iff, Nat.zero_add, exists_fields_iff]
  constructor
  · rintro ⟨rfl, hle, hlist⟩
    exact ⟨hle, rfl, hlist⟩
  · rintro ⟨hle, rfl, hlist⟩
    exact ⟨rfl, hle, hlist⟩

/-- The stricter grammar in which only the tags of users and groups have a qualifier. -/
def DenotesStrictly (accounts : Accounts) (permsReqd : Bool) (s : CString)
    (ace : AccessControlEntry) : Prop :=
  ∃ tagStr q p, Fields s tagStr q p ∧ (q ≠ [] → ace.tag = .user ∨ ace.tag = .group) ∧
    Names accounts tagStr q ace.tag ace.qual ∧ PermsDenote permsReqd p ace.perms

/-- An entry for others with a qualifier, `o:x:r`. -/
def strayEntry : CString := ['o', ':', 'x', ':', 'r']

def noAccounts : Accounts := ⟨fun _ => none, fun _ => none⟩

theorem strayEntry_not_strict {ace : AccessControlEntry} :
    ¬DenotesStrictly noAccounts true strayEntry ace := by
  rintro ⟨t, q, p, hfields, hqual, hnames, -⟩
  obtain ⟨rest, ht, hq⟩ := hfields.cut hnames.colon_notMem
  have hcut : cut ':' strayEntry = some (['o'], ['x', ':', 'r']) := by decide
  have hcut' : cut ':' ['x', ':', 'r'] = some (['x'], ['r']) := by decide
  rw [hcut] at ht
  cases ht
  rw [hcut'] at hq
  cases hq
  obtain ⟨tag, qual, perms⟩ := ace
  cases hnames with
  | other => simp at hqual
  | user ht | group ht | mask ht => exact absurd ht (by decide)

/-- It is accepted, although only users and groups have qualifiers. -/
theorem parseACL_not_strict :
    ¬((∃ r, parseACL noAccounts true strayEntry = .ok r) ↔
      ∃ entries aclist, strayEntry = [','].intercalate entries ∧ (∀ e ∈ entries, ',' ∉ e) ∧
        1 ≤ entries.length ∧ entries.length ≤ MAX_ENTRIES ∧
        List.Forall₂ (DenotesStrictly noAccounts true) entries aclist) := by
  intro h
  have haccepted : parseACL noAccounts true strayEntry = .ok (1, [⟨.other, 0, some 4⟩]) :=
    parseFrom_last (by decide) (by decide)
  obtain ⟨entries, aclist, hs, hcomma, hpos, -, hlist⟩ := h.mp ⟨_, haccepted⟩
  have hentries := List.splitOn_intercalate ',' hcomma (List.length_pos_iff.mp hpos)
  rw [← hs, splitOn_of_cut_eq_none (by decide)] at hentries
  subst hentries
  obtain ⟨ace, l, hace, -, -⟩ := List.forall₂_cons_left_iff.mp hlist
  exact strayEntry_not_strict hace

end Tlpi.Acl
