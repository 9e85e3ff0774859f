import Mathlib.Data.List.DropRight
import Tlpi.Lib.Cut
import Tlpi.Namespaces.UsernsChildExec

/-!
# What the usage text says (`namespaces/userns_child_exec.c`)

The options as `usage()` describes them, where `usageAction` is what it says of an option as a
sequence of calls, and which command lines are performed as it says.
-/

namespace Tlpi.UsernsChildExec

open Tlpi.Num (CString)
open Getopt CallTree

/-! ### The usage text -/

/-- The options, and whether each has an argument. -/
def usageOptions : Table :=
  [('C', false), ('i', false), ('m', false), ('n', false), ('p', false), ('u', false), ('U', false),
    ('M', true), ('G', true), ('D', false), ('r', false), ('v', false), ('I', false), ('A', false),
    ('s', true), ('S', true), ('b', true), ('d', false), ('w', true), ('x', true), ('X', true)]

/-- The options that are performed in the child, in the order in which they are specified. -/
def repeatable : List Char := ['I', 'A', 's', 'S', 'b', 'd', 'w', 'x', 'X']

/-- An option of a command line, and its argument. -/
abbrev Written := Char × Option CString

/-- The flags of `-b`. -/
def secbit : Char → Option Nat
  | 'a' => some SECBIT_NO_CAP_AMBIENT_RAISE
  | 'A' => some SECBIT_NO_CAP_AMBIENT_RAISE_LOCKED
  | 'k' => some SECBIT_KEEP_CAPS
  | 'K' => some SECBIT_KEEP_CAPS_LOCKED
  | 'r' => some SECBIT_NOROOT
  | 'R' => some SECBIT_NOROOT_LOCKED
  | 's' => some SECBIT_NO_SETUID_FIXUP
  | 'S' => some SECBIT_NO_SETUID_FIXUP_LOCKED
  | _ => none

/-- A letter of `-b` that is neither a flag nor `0`. -/
def notSecbit (c : Char) : Bool := c ≠ '0' && (secbit c).isNone

/-- Set the flags, where `0` clears those before it. -/
def usageSecurebits (bits : CString) : Prog Unit :=
  match bits.find? notSecbit with
  | some c => .exit (badSecbit c)
  | none =>
    let flags := (bits.rtakeWhile (· ≠ '0')).filterMap secbit
    orExit (.setSecurebits (flags.foldl (· ||| ·) 0)) (.errExit "prctl-PR_SET_SECUREBITS")

def isSet (c : Char) : Bool := c ≠ '+' && c ≠ '-'

/-- `[peiba]{+|-}<cap-name>`: the sets, the operation and the name. -/
def setsOf (arg : CString) : Option (CString × Char × CString) :=
  match arg.dropWhile isSet with
  | op :: name =>
    if name ≠ [] ∧ (arg.takeWhile isSet).all (· ∈ "peiba".toList) then
      some (arg.takeWhile isSet, op, name)
    else none
  | [] => none

/-- Get the sets, change one capability in one of them, set them, and free what was got. -/
def usageChange (flag : CapFlag) (cap : Nat) (set : Bool) (failed : Prog Unit) : Prog Unit :=
  .call .capGetProc fun got => if !got then failed else
  .call (.capSetFlag flag cap set) fun changed =>
  if !changed then .call .capFree fun _ => failed else
  .call (.capSetProc none) fun done => if !done then .call .capFree fun _ => failed else
  .call .capFree fun freed => if !freed then failed else .ret ()

/-- Push the capabilities `caps` into the inheritable set and, if so asked, into the ambient set,
where one that cannot be pushed is passed over. -/
def usagePush (ambient : Bool) : List Nat → Prog Unit
  | [] => .ret ()
  | cap :: caps =>
    (usageChange .inheritable cap true (.ret ())).bind fun _ =>
      if ambient then .call (.ambient true cap) fun _ => usagePush ambient caps
      else usagePush ambient caps

/-- `r,e,s` -/
def usageUids (arg : CString) : Prog Unit :=
  match arg.splitOn ',' with
  | [ruid, euid, suid] =>
    orExit (.setresuid (unsignedOf ruid) (unsignedOf euid) (unsignedOf suid))
      (.errExit "-S failed (setresuid)")
  | _ =>
    .exit (.message ("Expected three comma-separated UIDs: -S " ++ String.ofList arg ++ "\n"))

/-- The sets that `cap_from_text(3)` makes of the text become those of the process. -/
def usageSetCaps (L : Libcap) (text : CString) : Prog Unit :=
  match L.capFromText text with
  | none => .exit (.errExit "-x: cap_from_text")
  | some caps =>
    .call (.capSetProc (some caps)) fun ok =>
      if ok then .call .capFree fun _ => .ret () else .exit (.errExit "-x: cap_set_proc()")

/-- The set of `-X` that a letter stands for, of those that are set as a whole. -/
def setOf : Char → Option CapFlag
  | 'p' => some .permitted
  | 'e' => some .effective
  | 'i' => some .inheritable
  | _ => none

/-- The capability `name` cannot be added to or removed from the set `p`. -/
def notModified (op p : Char) (name : CString) : Exit :=
  .message ("-X: modifyCapSetting() failed while " ++
    (if op = '+' then "raising" else "lowering") ++ " '" ++ String.ofList name ++ "' in '" ++
    String.ofList [p] ++ "'\n")

/-- One set `p` is modified, which no letter of `-X` refuses but `b` with `+`. -/
def usageModifyOne (op : Char) (name : CString) (cap : Nat) (p : Char) : Prog Unit :=
  match setOf p with
  | some flag => usageChange flag cap (op = '+') (.exit (notModified op p name))
  | none =>
    if p = 'a' then orExit (.ambient (op = '+') cap) (.errExit "-X: PR_CAP_AMBIENT")
    else if op = '-' then orExit (.capbsetDrop cap) (.errExit "-X: PR_CAPBSET_DROP")
    else .exit (.message "Can't add capabilities to the bounding set\n")

/-- Each set is modified as an individual operation, in the order specified. -/
def usageModify (L : Libcap) (arg : CString) : Prog Unit :=
  match setsOf arg with
  | none => .exit (.message "Badly formed -X option\n")
  | some (sets, op, name) =>
    match L.capFromName name with
    | none => .exit (.message "-X: bad capability name\n")
    | some cap => forEach sets (usageModifyOne op name cap)

/-- The action of an option, call by call; `nth` is its number if it is `-d`. -/
def usageAction (L : Libcap) (nth : Nat) (o : Written) : Prog Unit :=
  match o.1, o.2 with
  | 'I', _ => usagePush false (List.range (L.capLastCap + 1))
  | 'A', _ => usagePush true (List.range (L.capLastCap + 1))
  | 's', some uid =>
    orExit (.setresuid (unsignedOf uid) (unsignedOf uid) (unsignedOf uid)) (.errExit "setresuid")
  | 'S', some uids => usageUids uids
  | 'b', some bits => usageSecurebits bits
  | 'd', _ => ignore (.displayCredsAndCaps ("[-d ".toList ++ Nat.toDigits 10 nth ++ "] ".toList))
  | 'w', some nsecs => ignore (.sleep (unsignedOf nsecs))
  | 'x', some text => usageSetCaps L text
  | 'X', some arg => usageModify L arg
  | _, _ => .ret ()

/-- The options `os` behind `done`. -/
def usageFrom (L : Libcap) (done : List Written) : List Written → Prog Unit
  | [] => .ret ()
  | o :: os =>
    (usageAction L ((done ++ [o]).countP (·.1 = 'd')) o).bind fun _ => usageFrom L (done ++ [o]) os

/-- The options of a command line `args` are `os`, with the command `cmd` behind them, as the usage
text permits it. -/
structure Documented (args : List CString) (os : List Written) (cmd : List CString) : Prop where
  scan : scan (takes usageOptions) args = (os.map fun o => .opt o.1 o.2, cmd)
  cmd : cmd ≠ []
  userns : 'M' ∈ os.map Prod.fst ∨ 'G' ∈ os.map Prod.fst ∨ 'r' ∈ os.map Prod.fst →
    'U' ∈ os.map Prod.fst
  root : 'r' ∈ os.map Prod.fst → 'M' ∉ os.map Prod.fst ∧ 'G' ∉ os.map Prod.fst
  count : (os.filter (·.1 ∈ repeatable)).length ≤ MAX_OPT

/-- Not the branch for an unexpected option. -/
def Call.Expected : Call → Prop
  | .unexpected _ => False
  | _ => True

/-- The command line is accepted, and its repeatable options are performed in their order. -/
def AsUsage (L : Libcap) (args : List CString) (os : List Written) (cmd : List CString) : Prop :=
  ∃ opts, parseCommandOptions args = .ok opts ∧ opts.argv = cmd ∧
    performRepeatableOptions L opts = usageFrom L [] (os.filter (·.1 ∈ repeatable)) ∧
    (performRepeatableOptions L opts).Only Call.Expected

/-- An argument of `-X` that is malformed, names no capability or adds to the bounding set. -/
def modifyRefused (L : Libcap) (arg : CString) : Bool :=
  match setsOf arg with
  | none => true
  | some (sets, op, name) => (L.capFromName name).isNone || decide (op = '+' ∧ 'b' ∈ sets)

/-- The option makes the child exit, whatever the calls return. -/
def refused (L : Libcap) (o : Written) : Bool :=
  match o.1, o.2 with
  | 'b', some bits => bits.any notSecbit
  | 'x', some text => (L.capFromText text).isNone
  | 'X', some arg => modifyRefused L arg
  | _, _ => false

/-! ### The options of the parser -/

theorem takes_optstring : takes (tableOf optstring) = takes usageOptions :=
  takes_eq_of_perm (by unfold UniqueKeys; decide) (by decide)

/-- An option of the usage text, with an argument if it has one there. -/
def Written.Ok (o : Written) : Prop := (o.1, o.2.isSome) ∈ usageOptions

theorem Written.Ok.exists_optarg {c : Char} {optarg : Option CString} (h : Written.Ok (c, optarg))
    (hc : (c, false) ∉ usageOptions) : ∃ s, optarg = some s := by
  cases optarg with
  | none => exact absurd h hc
  | some s => exact ⟨s, rfl⟩

/-- What the parser has stored after the options `os`. -/
structure Parsed (os : List Written) (opts : CmdOptions) : Prop where
  uidMap : opts.uidMap.isSome ↔ 'M' ∈ os.map Prod.fst
  gidMap : opts.gidMap.isSome ↔ 'G' ∈ os.map Prod.fst
  root : opts.createRootMappings ↔ 'r' ∈ os.map Prod.fst
  userns : opts.flags &&& CLONE_NEWUSER = 0 ↔ 'U' ∉ os.map Prod.fst
  optList : opts.optList = (os.filter (·.1 ∈ repeatable)).map fun o => ⟨o.1, o.2⟩

namespace Parsed

variable {os : List Written} {opts opts' : CmdOptions} {c : Char} {optarg : Option CString}

theorem snoc (h : Parsed os opts) (huid : opts'.uidMap.isSome ↔ opts.uidMap.isSome ∨ c = 'M')
    (hgid : opts'.gidMap.isSome ↔ opts.gidMap.isSome ∨ c = 'G')
    (hroot : opts'.createRootMappings ↔ opts.createRootMappings ∨ c = 'r')
    (hflags : opts'.flags &&& CLONE_NEWUSER = 0 ↔ opts.flags &&& CLONE_NEWUSER = 0 ∧ c ≠ 'U')
    (hlist : opts'.optList = opts.optList ++ if c ∈ repeatable then [⟨c, optarg⟩] else []) :
    Parsed (os ++ [(c, optarg)]) opts' := by
  have hmem (d : Char) : d ∈ (os ++ [(c, optarg)]).map Prod.fst ↔ d ∈ os.map Prod.fst ∨ c = d := by
    rw [List.map_append, List.mem_append, List.map_singleton, List.mem_singleton, eq_comm (a := d)]
  refine ⟨?_, ?_, ?_, ?_, ?_⟩
  · rw [huid, h.uidMap, hmem]
  · rw [hgid, h.gidMap, hmem]
  · rw [hroot, h.root, hmem]
  · rw [hflags, h.userns, hmem, not_or]
  · rw [hlist, h.optList, List.filter_append, List.map_append, List.filter_singleton]
    split <;> simp [*]

/-- A letter for a new namespace. -/
theorem flag (h : Parsed os opts) {f : Nat} (hmap : c ≠ 'M' ∧ c ≠ 'G' ∧ c ≠ 'r')
    (hrep : c ∉ repeatable) (hf : f &&& CLONE_NEWUSER = 0 ↔ c ≠ 'U') :
    Parsed (os ++ [(c, optarg)]) { opts with flags := opts.flags ||| f } := by
  refine h.snoc (by simp [hmap]) (by simp [hmap]) (by simp [hmap]) ?_ (by simp [hrep])
  rw [Nat.and_or_distrib_right, Nat.or_eq_zero_iff, hf]

/-- A letter that is stored for the child. -/
theorem store (h : Parsed os opts) (hmap : c ≠ 'M' ∧ c ≠ 'G' ∧ c ≠ 'r' ∧ c ≠ 'U')
    (hrep : c ∈ repeatable) {val : Option CString} (hval : val = optarg) :
    Parsed (os ++ [(c, optarg)]) { opts with optList := opts.optList ++ [⟨c, val⟩] } :=
  h.snoc (by simp [hmap]) (by simp [hmap]) (by simp [hmap]) (by simp [hmap]) (by simp [hrep, hval])

/-- There is space for one more option of the child. -/
theorem not_full (h : Parsed os opts) (hrep : c ∈ repeatable)
    (hcount : ((os ++ [(c, optarg)]).filter (·.1 ∈ repeatable)).length ≤ MAX_OPT) :
    ¬opts.optList.length ≥ MAX_OPT := by
  rw [List.filter_append, List.length_append, List.filter_cons_of_pos (by simpa using hrep),
    List.filter_nil, List.length_singleton] at hcount
  rw [h.optList, List.length_map]
  omega

end Parsed

theorem parseOption_parsed {os : List Written} {opts : CmdOptions} {o : Written}
    (h : Parsed os opts) (ho : o.Ok) (hS : o.1 ≠ 'S')
    (hcount : ((os ++ [o]).filter (·.1 ∈ repeatable)).length ≤ MAX_OPT) :
    ∃ opts', parseOption opts (.opt o.1 o.2) = .ok opts' ∧ Parsed (os ++ [o]) opts' := by
  obtain ⟨c, optarg⟩ := o
  have hfull : c ∈ repeatable → ¬opts.optList.length ≥ MAX_OPT :=
    fun hrep => h.not_full hrep hcount
  simp only [Written.Ok, usageOptions, List.mem_cons, Prod.mk.injEq, List.not_mem_nil, or_false] at ho
  rcases ho with ⟨rfl, ho⟩ | ⟨rfl, ho⟩ | ⟨rfl, ho⟩ | ⟨rfl, ho⟩ | ⟨rfl, ho⟩ | ⟨rfl, ho⟩ | ⟨rfl, ho⟩ |
    ⟨rfl, ho⟩ | ⟨rfl, ho⟩ | ⟨rfl, ho⟩ | ⟨rfl, ho⟩ | ⟨rfl, ho⟩ | ⟨rfl, ho⟩ | ⟨rfl, ho⟩ | ⟨rfl, ho⟩ |
    ⟨rfl, ho⟩ | ⟨rfl, ho⟩ | ⟨rfl, ho⟩ | ⟨rfl, ho⟩ | ⟨rfl, ho⟩ | ⟨rfl, ho⟩
  -- the new namespaces
  iterate 7 exact ⟨_, rfl, h.flag (by decide) (by decide) (by decide)⟩
  -- `M`, `G`, `D`, `r` and `v`
  iterate 5 exact ⟨_, rfl, h.snoc (by simp [ho]) (by simp [ho]) (by simp) (by simp) (by simp [repeatable])⟩
  -- the options of the child, where only some have an argument
  all_goals first
    | exact absurd rfl hS
    | exact ⟨_, if_neg (hfull (by decide)), h.store (by decide) (by decide)
        (by cases optarg <;> first | rfl | cases ho)⟩

theorem foldlM_parseOption {done os : List Written} {opts : CmdOptions} (h : Parsed done opts)
    (hok : ∀ o ∈ os, Written.Ok o) (hS : 'S' ∉ os.map Prod.fst)
    (hcount : ((done ++ os).filter (·.1 ∈ repeatable)).length ≤ MAX_OPT) :
    ∃ opts', (os.map fun o => Opt.opt o.1 o.2).foldlM parseOption opts = .ok opts' ∧
      Parsed (done ++ os) opts' := by
  induction os generalizing done opts with
  | nil => exact ⟨opts, rfl, by rwa [List.append_nil]⟩
  | cons o os ih =>
    rw [List.append_cons] at hcount ⊢
    rw [List.map_cons, List.mem_cons, not_or] at hS
    rw [List.forall_mem_cons] at hok
    have hle : ((done ++ [o]).filter (·.1 ∈ repeatable)).length ≤ MAX_OPT := by
      rw [List.filter_append, List.length_append] at hcount
      omega
    obtain ⟨opts₁, hparse, hparsed⟩ := parseOption_parsed h hok.1 (Ne.symm hS.1) hle
    obtain ⟨opts', hfold, hparsed'⟩ := ih hparsed hok.2 hS.2 hcount
    refine ⟨opts', ?_, hparsed'⟩
    rw [List.map_cons, List.foldlM_cons, hparse]
    exact hfold

/-- The parser never gets past `S`. -/
theorem foldlM_parseOption_S {os : List Written} (h : 'S' ∈ os.map Prod.fst) (opts : CmdOptions) :
    ∃ e, (os.map fun o => Opt.opt o.1 o.2).foldlM parseOption opts = .error e := by
  induction os generalizing opts with
  | nil => cases h
  | cons o os ih =>
    rw [List.map_cons, List.foldlM_cons]
    cases hparse : parseOption opts (.opt o.1 o.2) with
    | error e => exact ⟨e, rfl⟩
    | ok opts' =>
      rw [List.map_cons, List.mem_cons] at h
      refine ih (h.resolve_left fun heq => ?_) opts'
      rw [← heq] at hparse
      cases hparse

theorem Documented.ok {args cmd : List CString} {os : List Written} (h : Documented args os cmd) :
    ∀ o ∈ os, Written.Ok o := by
  intro o ho
  have hagrees := scan_agrees (takes usageOptions) args (.opt o.1 o.2) (by
    rw [h.scan]
    exact List.mem_map_of_mem ho)
  exact mem_of_takes hagrees

/-- A documented command line is accepted unless it has the option `-S`. -/
theorem parseCommandOptions_of_documented {args cmd : List CString} {os : List Written}
    (h : Documented args os cmd) (hS : 'S' ∉ os.map Prod.fst) :
    ∃ opts, parseCommandOptions args = .ok opts ∧ opts.argv = cmd ∧
      opts.optList = (os.filter (·.1 ∈ repeatable)).map fun o => ⟨o.1, o.2⟩ := by
  have hinit : Parsed [] ⟨[], 0, false, true, false, none, none, []⟩ :=
    ⟨by simp, by simp, by simp, by simp, rfl⟩
  obtain ⟨opts, hfold, hparsed⟩ := foldlM_parseOption hinit h.ok hS h.count
  refine ⟨{ opts with argv := cmd }, ?_, rfl, hparsed.optList⟩
  have hmaps : ¬((opts.uidMap.isSome ∨ opts.gidMap.isSome ∨ opts.createRootMappings) ∧
      opts.flags &&& CLONE_NEWUSER = 0 ∨
      opts.createRootMappings ∧ (opts.uidMap.isSome ∨ opts.gidMap.isSome)) := by
    rw [hparsed.uidMap, hparsed.gidMap, hparsed.root, hparsed.userns]
    rintro (⟨hmap, hU⟩ | ⟨hr, hmap⟩)
    · exact hU (h.userns hmap)
    · exact hmap.elim (h.root hr).1 (h.root hr).2
  rw [parseCommandOptions, takes_optstring, h.scan]
  dsimp only
  rw [hfold]
  exact (if_neg hmaps).trans (if_neg h.cmd)

theorem parseCommandOptions_S {args cmd : List CString} {os : List Written}
    (h : Documented args os cmd) (hS : 'S' ∈ os.map Prod.fst) :
    ∃ e, parseCommandOptions args = .error e := by
  obtain ⟨e, he⟩ := foldlM_parseOption_S hS ⟨[], 0, false, true, false, none, none, []⟩
  refine ⟨e, ?_⟩
  rw [parseCommandOptions, takes_optstring, h.scan]
  dsimp only
  rw [he]
  rfl

/-! ### The options of the child -/

theorem secbitsOf_cons (secbits : Nat) (p : Char) (ps : CString) :
    secbitsOf secbits (p :: ps) =
      if p = '0' then secbitsOf 0 ps
      else
        match secbit p with
        | some b => secbitsOf (secbits ||| b) ps
        | none => .error p := by
  conv_lhs => unfold secbitsOf
  split
  iterate 9 rfl
  next hother =>
    rw [if_neg hother, secbit.eq_9 p ‹_› ‹_› ‹_› ‹_› ‹_› ‹_› ‹_› ‹_›]

theorem secbitsOf_append (secbits : Nat) (ps qs : CString) :
    secbitsOf secbits (ps ++ qs) = secbitsOf secbits ps >>= fun secbits => secbitsOf secbits qs := by
  induction ps generalizing secbits with
  | nil => rfl
  | cons p ps ih =>
    rw [List.cons_append, secbitsOf_cons, secbitsOf_cons]
    split
    · exact ih 0
    · cases secbit p with
      | none => rfl
      | some b => exact ih _

/-- The flags behind the last `0`, unless there is a letter that is none. -/
theorem secbitsOf_zero (bits : CString) :
    secbitsOf 0 bits =
      match bits.find? notSecbit with
      | some c => .error c
      | none => .ok (((bits.rtakeWhile (· ≠ '0')).filterMap secbit).foldl (· ||| ·) 0) := by
  induction bits using List.reverseRecOn with
  | nil => rfl
  | append_singleton bits c ih =>
    rw [secbitsOf_append, ih, List.find?_append]
    cases bits.find? notSecbit with
    | some d => rfl
    | none =>
      rw [List.rtakeWhile_concat, Option.none_or]
      change secbitsOf _ [c] = _
      rw [secbitsOf_cons]
      by_cases hzero : c = '0'
      · subst hzero
        rfl
      · rw [if_neg hzero, if_pos (by simpa using hzero), List.filterMap_append, List.foldl_append]
        cases hc : secbit c with
        | none =>
          have hnot : notSecbit c = true := by simp [notSecbit, hzero, hc]
          rw [List.find?_cons_of_pos hnot]
        | some b =>
          have hnot : ¬notSecbit c = true := by simp [notSecbit, hc]
          rw [List.find?_cons_of_neg hnot, List.filterMap_cons_some hc]
          rfl

theorem setSecurebits_eq (bits : CString) : setSecurebits bits = usageSecurebits bits := by
  rw [setSecurebits, secbitsOf_zero, usageSecurebits]
  cases bits.find? notSecbit <;> rfl

theorem splitSets_eq (arg : CString) (badCap : Bool) :
    splitSets arg badCap = (arg.takeWhile isSet, arg.dropWhile isSet,
      badCap || (arg.takeWhile isSet).any (· ∉ "peiba".toList)) := by
  induction arg generalizing badCap with
  | nil => simp [splitSets]
  | cons c cs ih =>
    rw [splitSets]
    split
    · next hop =>
      have hset : isSet c = false := by
        obtain rfl | rfl := hop <;> rfl
      simp [hset]
    · next hop =>
      have hset : isSet c = true := by
        simpa [isSet] using hop
      simp [ih, hset, Bool.or_assoc]

theorem usageChange_eq (flag : CapFlag) (cap : Nat) (set : Bool) (failed : Prog Unit) :
    usageChange flag cap set failed =
      (modifyCapSetting flag cap set).bind fun ok => if ok then .ret () else failed := by
  refine congrArg (call Call.capGetProc) (funext fun got => ?_)
  cases got with
  | false => rfl
  | true =>
    refine congrArg (call (Call.capSetFlag flag cap set)) (funext fun changed => ?_)
    cases changed with
    | false => rfl
    | true =>
      refine congrArg (call (Call.capSetProc none)) (funext fun done => ?_)
      cases done with
      | false => rfl
      | true => exact congrArg (call Call.capFree) (funext fun freed => by cases freed <;> rfl)

/-- The raise that may fail, for each capability in turn. -/
theorem raiseInheritableAndAmbientCaps_eq (L : Libcap) (doAmbient : Bool) :
    raiseInheritableAndAmbientCaps L doAmbient =
      usagePush doAmbient (List.range (L.capLastCap + 1)) := by
  unfold raiseInheritableAndAmbientCaps
  generalize List.range (L.capLastCap + 1) = caps
  induction caps with
  | nil => rfl
  | cons cap caps ih =>
    rw [forEach, usagePush, usageChange_eq, bind_assoc, bind_assoc, ih]
    refine congrArg (bind _) (funext fun ok => ?_)
    cases ok <;> cases doAmbient <;> rfl

theorem setCaps_eq (L : Libcap) (text : CString) : setCaps L text = usageSetCaps L text := by
  unfold setCaps usageSetCaps
  cases L.capFromText text with
  | none => rfl
  | some caps =>
    refine congrArg (call (Call.capSetProc (some caps))) (funext fun ok => ?_)
    cases ok <;> rfl

/-- The sign behind the sets. -/
theorem setsOf_op {arg sets name : CString} {op : Char} (h : setsOf arg = some (sets, op, name)) :
    op = '+' ∨ op = '-' := by
  unfold setsOf at h
  split at h
  · next hdrop =>
    split at h
    · cases h
      have hhead := List.head?_dropWhile_not isSet arg
      rw [hdrop] at hhead
      simpa [isSet, or_iff_not_imp_left] using hhead
    · cases h
  · cases h

theorem setsOf_mem {arg sets name : CString} {op : Char} (h : setsOf arg = some (sets, op, name)) :
    ∀ c ∈ sets, c ∈ "peiba".toList := by
  unfold setsOf at h
  split at h
  · split at h
    · next hsets =>
      cases h
      exact fun c hc => of_decide_eq_true (List.all_eq_true.mp hsets.2 c hc)
    · cases h
  · cases h

theorem modifySet_eq {op p : Char} (hop : op = '+' ∨ op = '-') (hp : p ∈ "peiba".toList)
    (name : CString) (cap : Nat) : modifySet op name cap p = usageModifyOne op name cap p := by
  have hp : p = 'p' ∨ p = 'e' ∨ p = 'i' ∨ p = 'b' ∨ p = 'a' := by simpa using hp
  rcases hp with rfl | rfl | rfl | rfl | rfl
  iterate 3 obtain rfl | rfl := hop <;> exact (usageChange_eq ..).symm
  iterate 2 obtain rfl | rfl := hop <;> rfl

theorem forEach_modifySet_eq {op : Char} {sets : CString} (hop : op = '+' ∨ op = '-')
    (hsets : ∀ c ∈ sets, c ∈ "peiba".toList) (name : CString) (cap : Nat) :
    forEach sets (modifySet op name cap) = forEach sets (usageModifyOne op name cap) :=
  forEach_congr fun p hp => modifySet_eq hop (hsets p hp) name cap

theorem modifyIndividualCapability_eq (L : Libcap) (arg : CString) :
    modifyIndividualCapability L arg = usageModify L arg := by
  have hmodify : modifyIndividualCapability L arg =
      match setsOf arg with
      | none => .exit (.message "Badly formed -X option\n")
      | some (sets, op, name) =>
        match L.capFromName name with
        | none => .exit (.message "-X: bad capability name\n")
        | some cap => forEach sets (modifySet op name cap) := by
    have hany : (arg.takeWhile isSet).any (· ∉ "peiba".toList) = false ↔
        (arg.takeWhile isSet).all (· ∈ "peiba".toList) = true := by
      simp only [List.any_eq_false, List.all_eq_true, decide_eq_true_eq, not_not]
    rw [modifyIndividualCapability, splitSets_eq, setsOf, Bool.false_or]
    cases arg.dropWhile isSet with
    | nil => rfl
    | cons op name =>
      dsimp only
      cases hbad : (arg.takeWhile isSet).any (· ∉ "peiba".toList) with
      | true =>
        have hsets := mt hany.mpr (by rw [hbad]; exact nofun)
        simp only [if_neg fun h : name ≠ [] ∧ _ => hsets h.2]
      | false =>
        have hsets := hany.mp hbad
        by_cases hname : name = []
        · simp only [if_pos hname, if_neg fun h : name ≠ [] ∧ _ => h.1 hname]
        · cases hcap : L.capFromName name <;>
            simp only [if_neg hname, if_pos (And.intro hname hsets), hcap]
  rw [hmodify, usageModify]
  cases hsets : setsOf arg with
  | none => rfl
  | some r =>
    obtain ⟨sets, op, name⟩ := r
    dsimp only
    cases L.capFromName name with
    | none => rfl
    | some cap => exact forEach_modifySet_eq (setsOf_op hsets) (setsOf_mem hsets) name cap

/-- The child has the case `S` that the parser lacks. -/
theorem setProcessUids_eq {ruid euid suid : CString} (hruid : ',' ∉ ruid) (heuid : ',' ∉ euid)
    (hsuid : ',' ∉ suid) :
    setProcessUids (ruid ++ ',' :: (euid ++ ',' :: suid)) =
      usageUids (ruid ++ ',' :: (euid ++ ',' :: suid)) := by
  have hcomma {s : CString} (hs : ',' ∉ s) (rest : CString) :
      atComma (s ++ ',' :: rest) = some (s, rest) := by
    have hall : ∀ c ∈ s, decide (c ≠ ',') = true :=
      fun c hc => decide_eq_true fun heq => hs (heq ▸ hc)
    rw [atComma, List.dropWhile_append_of_pos hall, List.takeWhile_append_of_pos hall]
    simp
  have hsplit {s : CString} (hs : ',' ∉ s) (rest : CString) :
      (s ++ ',' :: rest).splitOn ',' = s :: rest.splitOn ',' :=
    splitOn_of_cut_eq_some (cut_append hs)
  have hlast : suid.splitOn ',' = [suid] := splitOn_of_cut_eq_none (cut_eq_none.mpr hsuid)
  simp only [setProcessUids, usageUids, hcomma hruid, hcomma heuid, hsplit hruid, hsplit heuid,
    hlast]

/-- The buffer has space for the number of every option. -/
theorem displayPrefix_eq {n : Nat} (h : n ≤ MAX_OPT) :
    displayPrefix n = "[-d ".toList ++ Nat.toDigits 10 n ++ "] ".toList := by
  have hlen : (Nat.toDigits 10 n).length ≤ 3 :=
    (Nat.length_toDigits_le_iff (by decide) (by decide)).mpr (by unfold MAX_OPT at h; omega)
  refine List.take_of_length_le ?_
  rw [List.length_append, List.length_append]
  have hopen : "[-d ".toList.length = 4 := rfl
  have hclose : "] ".toList.length = 2 := rfl
  omega

/-- The letters of the options that the child knows. -/
theorem performOption_eq {L : Libcap} {n : Nat} {o : Written} (ho : o.Ok) (hrep : o.1 ∈ repeatable)
    (hI : o.1 ≠ 'I') (hA : o.1 ≠ 'A') (hS : o.1 ≠ 'S') (hn : n ≤ MAX_OPT) :
    performOption L n ⟨o.1, o.2⟩ = usageAction L n o := by
  have hdisplay := displayPrefix_eq hn
  obtain ⟨c, optarg⟩ := o
  simp only [repeatable, List.mem_cons, List.not_mem_nil, or_false] at hrep
  rcases hrep with rfl | rfl | rfl | rfl | rfl | rfl | rfl | rfl | rfl
  · exact absurd rfl hI
  · exact absurd rfl hA
  · obtain ⟨uid, rfl⟩ := ho.exists_optarg (by decide)
    rfl
  · exact absurd rfl hS
  · obtain ⟨bits, rfl⟩ := ho.exists_optarg (by decide)
    exact setSecurebits_eq bits
  · exact congrArg (fun str => ignore (Call.displayCredsAndCaps str)) hdisplay
  · obtain ⟨nsecs, rfl⟩ := ho.exists_optarg (by decide)
    rfl
  · obtain ⟨text, rfl⟩ := ho.exists_optarg (by decide)
    exact setCaps_eq L text
  · obtain ⟨arg, rfl⟩ := ho.exists_optarg (by decide)
    exact modifyIndividualCapability_eq L arg

/-- The actions of `I` and `A` are there in the child, under the letters that the parser never
stores. -/
theorem performOption_raise (L : Libcap) (n : Nat) (val : Option CString) :
    performOption L n ⟨'h', val⟩ = usageAction L n ('I', val) ∧
      performOption L n ⟨'a', val⟩ = usageAction L n ('A', val) :=
  ⟨raiseInheritableAndAmbientCaps_eq L false, raiseInheritableAndAmbientCaps_eq L true⟩

theorem returns_usageChange (flag : CapFlag) (cap : Nat) (set : Bool) (failed : Prog Unit) :
    (usageChange flag cap set failed).Returns :=
  ⟨true, true, true, true, trivial⟩

theorem returns_usagePush (ambient : Bool) (caps : List Nat) :
    (usagePush ambient caps).Returns := by
  induction caps with
  | nil => exact trivial
  | cons cap caps ih =>
    refine (returns_usageChange ..).bind fun _ => ?_
    cases ambient with
    | false => exact ih
    | true => exact ⟨true, ih⟩

/-- Only the bounding set cannot be added to. -/
theorem returns_usageModifyOne {op p : Char} {name : CString} {cap : Nat}
    (hop : op = '+' ∨ op = '-') (hp : p ∈ "peiba".toList) :
    (usageModifyOne op name cap p).Returns ↔ ¬(op = '+' ∧ p = 'b') := by
  have hp : p = 'p' ∨ p = 'e' ∨ p = 'i' ∨ p = 'b' ∨ p = 'a' := by simpa using hp
  rcases hp with rfl | rfl | rfl | rfl | rfl
  iterate 3 exact iff_of_true (returns_usageChange ..) (by simp)
  · obtain rfl | rfl := hop
    · exact iff_of_false id (by simp)
    · exact iff_of_true (returns_orExit ..) (by simp)
  · exact iff_of_true (returns_orExit ..) (by simp)

theorem returns_usageModify {L : Libcap} {arg : CString} :
    (usageModify L arg).Returns ↔ modifyRefused L arg = false := by
  rw [usageModify, modifyRefused]
  cases hsets : setsOf arg with
  | none => exact iff_of_false id (by simp)
  | some r =>
    obtain ⟨sets, op, name⟩ := r
    dsimp only
    cases L.capFromName name with
    | none => exact iff_of_false id (by simp)
    | some cap =>
      rw [returns_forEach, Option.isNone_some, Bool.false_or, decide_eq_false_iff_not]
      constructor
      · rintro h ⟨hop, hb⟩
        exact (returns_usageModifyOne (setsOf_op hsets) (setsOf_mem hsets _ hb)).mp (h _ hb)
          ⟨hop, rfl⟩
      · intro h p hp
        refine (returns_usageModifyOne (setsOf_op hsets) (setsOf_mem hsets p hp)).mpr ?_
        rintro ⟨hop, rfl⟩
        exact h ⟨hop, hp⟩

theorem returns_usageSecurebits {bits : CString} :
    (usageSecurebits bits).Returns ↔ bits.any notSecbit = false := by
  have hfind : bits.find? notSecbit = none ↔ bits.any notSecbit = false := by
    rw [List.find?_eq_none, List.any_eq_false]
  rw [usageSecurebits, ← hfind]
  cases bits.find? notSecbit with
  | none => exact iff_of_true (returns_orExit ..) rfl
  | some c => exact iff_of_false id (by simp)

theorem returns_usageSetCaps {L : Libcap} {text : CString} :
    (usageSetCaps L text).Returns ↔ (L.capFromText text).isNone = false := by
  rw [usageSetCaps]
  cases L.capFromText text with
  | none => exact iff_of_false id (by simp)
  | some caps => exact iff_of_true ⟨true, true, trivial⟩ rfl

theorem returns_usageAction {L : Libcap} {n : Nat} {o : Written} (ho : o.Ok)
    (hrep : o.1 ∈ repeatable) (hS : o.1 ≠ 'S') :
    (usageAction L n o).Returns ↔ refused L o = false := by
  obtain ⟨c, optarg⟩ := o
  simp only [repeatable, List.mem_cons, List.not_mem_nil, or_false] at hrep
  rcases hrep with rfl | rfl | rfl | rfl | rfl | rfl | rfl | rfl | rfl
  · exact iff_of_true (returns_usagePush ..) rfl
  · exact iff_of_true (returns_usagePush ..) rfl
  · obtain ⟨uid, rfl⟩ := ho.exists_optarg (by decide)
    exact iff_of_true (returns_orExit ..) rfl
  · exact absurd rfl hS
  · obtain ⟨bits, rfl⟩ := ho.exists_optarg (by decide)
    exact returns_usageSecurebits
  · exact iff_of_true (returns_ignore _) rfl
  · obtain ⟨nsecs, rfl⟩ := ho.exists_optarg (by decide)
    exact iff_of_true (returns_ignore _) rfl
  · obtain ⟨text, rfl⟩ := ho.exists_optarg (by decide)
    exact returns_usageSetCaps
  · obtain ⟨arg, rfl⟩ := ho.exists_optarg (by decide)
    exact returns_usageModify

theorem only_usageChange (flag : CapFlag) (cap : Nat) (set : Bool) {failed : Prog Unit}
    (h : failed.Only Call.Expected) : (usageChange flag cap set failed).Only Call.Expected := by
  refine ⟨trivial, fun got => ?_⟩
  cases got with
  | false => exact h
  | true =>
    refine ⟨trivial, fun changed => ?_⟩
    cases changed with
    | false => exact ⟨trivial, fun _ => h⟩
    | true =>
      refine ⟨trivial, fun done => ?_⟩
      cases done with
      | false => exact ⟨trivial, fun _ => h⟩
      | true => exact ⟨trivial, fun freed => by cases freed; exacts [h, trivial]⟩

theorem only_usagePush (ambient : Bool) (caps : List Nat) :
    (usagePush ambient caps).Only Call.Expected := by
  induction caps with
  | nil => exact trivial
  | cons cap caps ih =>
    have hraise : (usageChange .inheritable cap true (.ret ())).Only Call.Expected :=
      only_usageChange _ _ _ trivial
    refine hraise.bind fun _ => ?_
    cases ambient with
    | false => exact ih
    | true => exact ⟨trivial, fun _ => ih⟩

theorem only_usageModifyOne (op p : Char) (name : CString) (cap : Nat) :
    (usageModifyOne op name cap p).Only Call.Expected := by
  unfold usageModifyOne
  split
  · exact only_usageChange _ _ _ trivial
  · split
    · exact only_orExit trivial
    · split
      · exact only_orExit trivial
      · exact trivial

theorem only_usageModify (L : Libcap) (arg : CString) :
    (usageModify L arg).Only Call.Expected := by
  unfold usageModify
  split
  · exact trivial
  · split
    · exact trivial
    · exact .forEach fun p => only_usageModifyOne ..

/-- The documented actions are no unexpected options. -/
theorem only_usageAction (L : Libcap) (n : Nat) (o : Written) :
    (usageAction L n o).Only Call.Expected := by
  unfold usageAction
  split
  · exact only_usagePush ..
  · exact only_usagePush ..
  · exact only_orExit trivial
  · unfold usageUids
    split
    · exact only_orExit trivial
    · exact trivial
  · unfold usageSecurebits
    split
    · exact trivial
    · exact only_orExit trivial
  · exact only_ignore trivial
  · exact only_ignore trivial
  · unfold usageSetCaps
    split
    · exact trivial
    · refine ⟨trivial, fun ok => ?_⟩
      cases ok with
      | false => exact trivial
      | true => exact ⟨trivial, fun _ => trivial⟩
  · exact only_usageModify ..
  · exact trivial

theorem only_usageFrom (L : Libcap) (done os : List Written) :
    (usageFrom L done os).Only Call.Expected := by
  induction os generalizing done with
  | nil => exact trivial
  | cons o os ih => exact (only_usageAction ..).bind fun _ => ih _

/-! ### Whole command lines -/

/-- The letters `I` and `A` of the parser are unexpected in the child. -/
theorem performOption_unexpected {L : Libcap} {n : Nat} {o : OptionList}
    (h : o.opt = 'I' ∨ o.opt = 'A') : performOption L n o = ignore (.unexpected o.opt) := by
  obtain ⟨c, val⟩ := o
  obtain rfl | rfl := h
  · rfl
  · rfl

/-- The documented action of the two options begins otherwise. -/
theorem unexpected_ne_raise {L : Libcap} {n : Nat} {o : Written} (h : o.1 = 'I' ∨ o.1 = 'A')
    (c : Char) (f g : Unit → Prog Unit) :
    (ignore (.unexpected c)).bind f ≠ (usageAction L n o).bind g := by
  have hpush (ambient : Bool) : ∃ next,
      (usagePush ambient (List.range (L.capLastCap + 1))).bind g = .call .capGetProc next := by
    rw [List.range_succ_eq_map, usagePush]
    exact ⟨_, rfl⟩
  obtain ⟨d, optarg⟩ := o
  intro heq
  obtain rfl | rfl := h
  · obtain ⟨next, hnext⟩ := hpush false
    cases heq.trans hnext
  · obtain ⟨next, hnext⟩ := hpush true
    cases heq.trans hnext

theorem refused_of_unexpected {L : Libcap} {o : Written} (h : o.1 = 'I' ∨ o.1 = 'A') :
    refused L o = false := by
  obtain ⟨c, optarg⟩ := o
  obtain rfl | rfl := h
  · rfl
  · rfl

/-- The child does what the usage text says unless it comes to `I` or `A`. -/
theorem performFrom_eq_iff {L : Libcap} {done os : List Written} (hok : ∀ o ∈ os, o.Ok)
    (hrep : ∀ o ∈ os, o.1 ∈ repeatable) (hS : 'S' ∉ os.map Prod.fst)
    (hcount : (done ++ os).length ≤ MAX_OPT) :
    performFrom L (done.countP (·.1 = 'd')) (os.map fun o => ⟨o.1, o.2⟩) = usageFrom L done os ↔
      ∀ o ∈ os.takeWhile (fun o => !refused L o), o.1 ≠ 'I' ∧ o.1 ≠ 'A' := by
  induction os generalizing done with
  | nil => exact iff_of_true rfl nofun
  | cons o os ih =>
    rw [List.forall_mem_cons] at hok hrep
    rw [List.map_cons, List.mem_cons, not_or] at hS
    rw [List.append_cons] at hcount
    have hnth : (if o.1 = 'd' then done.countP (·.1 = 'd') + 1 else done.countP (·.1 = 'd')) =
        (done ++ [o]).countP (·.1 = 'd') := by
      rw [List.countP_append, List.countP_singleton]
      split <;> simp [*]
    have hle : (done ++ [o]).countP (·.1 = 'd') ≤ MAX_OPT := by
      rw [List.length_append] at hcount
      exact List.countP_le_length.trans ((Nat.le_add_right ..).trans hcount)
    rw [List.map_cons, performFrom, usageFrom]
    simp only [hnth]
    by_cases hIA : o.1 = 'I' ∨ o.1 = 'A'
    · rw [performOption_unexpected hIA, List.takeWhile_cons_of_pos (by simp [refused_of_unexpected hIA])]
      refine iff_of_false (unexpected_ne_raise hIA _ _ _) fun h => ?_
      have ho := h o List.mem_cons_self
      exact hIA.elim ho.1 ho.2
    · obtain ⟨hI, hA⟩ := not_or.mp hIA
      have hreturns := returns_usageAction (L := L) (n := (done ++ [o]).countP (·.1 = 'd')) hok.1
        hrep.1 (Ne.symm hS.1)
      rw [performOption_eq hok.1 hrep.1 hI hA (Ne.symm hS.1) hle]
      cases hrefused : refused L o with
      | true =>
        rw [List.takeWhile_cons_of_neg (by simp [hrefused])]
        refine iff_of_true (bind_of_not_returns (fun h => ?_) _ _) nofun
        rw [hreturns, hrefused] at h
        cases h
      | false =>
        rw [List.takeWhile_cons_of_pos (by simp [hrefused]), List.forall_mem_cons,
          ← ih hok.2 hrep.2 hS.2 hcount]
        refine ⟨fun heq => ⟨⟨hI, hA⟩, bind_cancel (hreturns.mpr hrefused) heq⟩, fun h => ?_⟩
        rw [h.2]

/-- A documented command line is performed as the usage text says if and only if it has no `-S`, and
no `-I` or `-A` but behind an option whose argument is refused. -/
theorem asUsage_iff {args cmd : List CString} {os : List Written} (h : Documented args os cmd)
    (L : Libcap) :
    AsUsage L args os cmd ↔ 'S' ∉ os.map Prod.fst ∧
      ∀ o ∈ (os.filter (·.1 ∈ repeatable)).takeWhile (fun o => !refused L o),
        o.1 ≠ 'I' ∧ o.1 ≠ 'A' := by
  by_cases hS : 'S' ∈ os.map Prod.fst
  · refine iff_of_false ?_ fun hcond => hcond.1 hS
    rintro ⟨opts, hparse, -⟩
    obtain ⟨e, he⟩ := parseCommandOptions_S h hS
    cases hparse.symm.trans he
  · obtain ⟨opts, hparse, hargv, hlist⟩ := parseCommandOptions_of_documented h hS
    have hok : ∀ o ∈ os.filter (·.1 ∈ repeatable), Written.Ok o :=
      fun o ho => h.ok o (List.mem_filter.mp ho).1
    have hrep : ∀ o ∈ os.filter (·.1 ∈ repeatable), o.1 ∈ repeatable :=
      fun o ho => of_decide_eq_true (List.mem_filter.mp ho).2
    have hS' : 'S' ∉ (os.filter (·.1 ∈ repeatable)).map Prod.fst :=
      fun hmem => hS (List.map_subset _ List.filter_sublist.subset hmem)
    have hcount : (([] : List Written) ++ os.filter (·.1 ∈ repeatable)).length ≤ MAX_OPT := h.count
    have hiff := performFrom_eq_iff (L := L) hok hrep hS' hcount
    rw [and_iff_right hS, ← hiff, ← hlist]
    constructor
    · rintro ⟨opts', hparse', -, heq, -⟩
      cases hparse.symm.trans hparse'
      exact heq
    · intro heq
      refine ⟨opts, hparse, hargv, heq, ?_⟩
      rw [show performRepeatableOptions L opts = _ from heq]
      exact only_usageFrom L [] _

/-- `-d -b ar sh` -/
theorem asUsage_iff_securebits :
    Documented [['-', 'd'], ['-', 'b'], ['a', 'r'], ['s', 'h']] [('d', none), ('b', some ['a', 'r'])]
        [['s', 'h']] ∧
      AsUsage ⟨40, fun _ => none, fun _ => none⟩ [['-', 'd'], ['-', 'b'], ['a', 'r'], ['s', 'h']]
        [('d', none), ('b', some ['a', 'r'])] [['s', 'h']] := by
  have h : Documented [['-', 'd'], ['-', 'b'], ['a', 'r'], ['s', 'h']]
      [('d', none), ('b', some ['a', 'r'])] [['s', 'h']] :=
    ⟨by decide, by decide, by decide, by decide, by decide⟩
  exact ⟨h, (asUsage_iff h _).mpr (by decide)⟩

/-- `-A sh`: the capabilities are not raised. -/
theorem ambient_not_asUsage :
    Documented [['-', 'A'], ['s', 'h']] [('A', none)] [['s', 'h']] ∧
      ¬AsUsage ⟨40, fun _ => none, fun _ => none⟩ [['-', 'A'], ['s', 'h']] [('A', none)]
        [['s', 'h']] := by
  refine ⟨⟨by decide, by decide, by decide, by decide, by decide⟩, ?_⟩
  rintro ⟨opts, hparse, -, -, honly⟩
  have hopts : parseCommandOptions [['-', 'A'], ['s', 'h']] =
      .ok ⟨[['s', 'h']], 0, false, true, false, none, none, [⟨'A', none⟩]⟩ := by decide
  cases hparse.symm.trans hopts
  exact honly.1

end Tlpi.UsernsChildExec
