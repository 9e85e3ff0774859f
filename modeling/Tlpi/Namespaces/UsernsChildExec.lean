import Mathlib.Data.List.Basic
import Tlpi.Lib.CallTree
import Tlpi.Lib.Decimal
import Tlpi.Lib.Getopt

/-!
# Options that are performed in the child (`namespaces/userns_child_exec.c`)

`parseCommandOptions` stores the repeatable options of a command line, and
`performRepeatableOptions` performs them in the child. Their letters stand in the usage text, in the
`optstring` and in two `switch` statements, which do not agree: the parser has no case for `S`, and
the child has `a` and `h` where the parser stores `A` and `I`.
-/

namespace Tlpi.UsernsChildExec

open Tlpi.Num (CString atoi)
open Getopt

def MAX_OPT : Nat := 100

def CLONE_NEWNS : Nat := 0x00020000
def CLONE_NEWCGROUP : Nat := 0x02000000
def CLONE_NEWUTS : Nat := 0x04000000
def CLONE_NEWIPC : Nat := 0x08000000
def CLONE_NEWUSER : Nat := 0x10000000
def CLONE_NEWPID : Nat := 0x20000000
def CLONE_NEWNET : Nat := 0x40000000

/-! ### The parser -/

/-- `struct option_list` -/
structure OptionList where
  opt : Char
  val : Option CString
  deriving DecidableEq, Repr

/-- `struct cmd_options`, with the first `opt_cnt` elements of `opt_list`. -/
structure CmdOptions where
  argv : List CString
  flags : Nat
  createRootMappings : Bool
  denySetgroups : Bool
  verbose : Bool
  uidMap : Option CString
  gidMap : Option CString
  optList : List OptionList
  deriving DecidableEq, Repr

inductive Refusal where
  | usage
  /-- `Too many repeatable options` -/
  | tooMany
  deriving DecidableEq, Repr

/-- One round of the loop around `getopt()`. -/
def parseOption (opts : CmdOptions) : Opt → Except Refusal CmdOptions
  | .bad => .error .usage
  | .opt opt optarg =>
    match opt with
    | 'C' => .ok { opts with flags := opts.flags ||| CLONE_NEWCGROUP }
    | 'i' => .ok { opts with flags := opts.flags ||| CLONE_NEWIPC }
    | 'm' => .ok { opts with flags := opts.flags ||| CLONE_NEWNS }
    | 'n' => .ok { opts with flags := opts.flags ||| CLONE_NEWNET }
    | 'p' => .ok { opts with flags := opts.flags ||| CLONE_NEWPID }
    | 'u' => .ok { opts with flags := opts.flags ||| CLONE_NEWUTS }
    | 'U' => .ok { opts with flags := opts.flags ||| CLONE_NEWUSER }
    | 'M' => .ok { opts with uidMap := optarg }
    | 'G' => .ok { opts with gidMap := optarg }
    | 'r' => .ok { opts with createRootMappings := true }
    | 'D' => .ok { opts with denySetgroups := false }
    | 'v' => .ok { opts with verbose := true }
    | 'I' | 'A' | 'b' | 's' | 'd' | 'x' | 'X' | 'w' =>
      if opts.optList.length ≥ MAX_OPT then .error .tooMany
      else
        let val := if opt ∈ ['s', 'S', 'x', 'X', 'w', 'b'] then optarg else none
        .ok { opts with optList := opts.optList ++ [⟨opt, val⟩] }
    | _ => .error .usage

def optstring : List Char := "CimnuUM:G:rDvpAIs:b:S:dx:X:w:".toList

/-- `args` are the arguments behind the name of the program. -/
def parseCommandOptions (args : List CString) : Except Refusal CmdOptions := do
  let (results, rest) := scan (takes (tableOf optstring)) args
  let opts ← results.foldlM parseOption ⟨[], 0, false, true, false, none, none, []⟩
  if (opts.uidMap.isSome ∨ opts.gidMap.isSome ∨ opts.createRootMappings) ∧
      opts.flags &&& CLONE_NEWUSER = 0 ∨
      opts.createRootMappings ∧ (opts.uidMap.isSome ∨ opts.gidMap.isSome) then .error .usage
  else if rest = [] then .error .usage
  else .ok { opts with argv := rest }

/-! ### The child -/

inductive CapFlag where
  | effective
  | permitted
  | inheritable
  deriving DecidableEq, Repr

/-- The sets of a `cap_t`. -/
structure Caps where
  effective : Nat
  permitted : Nat
  inheritable : Nat
  deriving DecidableEq, Repr

/-- The functions of `libcap` that only read their argument. -/
structure Libcap where
  capLastCap : Nat
  capFromName : CString → Option Nat
  capFromText : CString → Option Caps

inductive Call where
  | capGetProc
  | capSetFlag (flag : CapFlag) (cap : Nat) (set : Bool)
  /-- With the sets of `cap_get_proc()` as they were changed, or with those given. -/
  | capSetProc (caps : Option Caps)
  | capFree
  /-- `PR_CAP_AMBIENT_RAISE` or `PR_CAP_AMBIENT_LOWER` -/
  | ambient (raise : Bool) (cap : Nat)
  | capbsetDrop (cap : Nat)
  | setSecurebits (secbits : Nat)
  | setresuid (ruid euid suid : BitVec 32)
  | sleep (seconds : BitVec 32)
  | displayCredsAndCaps (str : List Char)
  /-- `Unexpected option (-%c) in perform_repeatable_options()` -/
  | unexpected (opt : Char)
  deriving DecidableEq, Repr

inductive Exit where
  | message (msg : String)
  | errExit (msg : String)
  | nullPointer
  deriving DecidableEq, Repr

abbrev Prog := CallTree Call Exit

open CallTree

/-- The value of a number as a `uid_t` or an `unsigned int`. -/
def unsignedOf (s : CString) : BitVec 32 := BitVec.ofInt 32 (atoi s)

/-- Whether it succeeds. -/
def modifyCapSetting (flag : CapFlag) (capability : Nat) (setting : Bool) : Prog Bool :=
  .call .capGetProc fun ok =>
    if ¬ok then .ret false
    else .call (.capSetFlag flag capability setting) fun ok =>
      if ¬ok then .call .capFree fun _ => .ret false
      else .call (.capSetProc none) fun ok =>
        if ¬ok then .call .capFree fun _ => .ret false
        else .call .capFree fun ok => .ret ok

def raiseInheritableAndAmbientCaps (L : Libcap) (doAmbient : Bool) : Prog Unit :=
  forEach (List.range (L.capLastCap + 1)) fun cap =>
    (modifyCapSetting .inheritable cap true).bind fun _ =>
      if doAmbient then ignore (.ambient true cap) else .ret ()

/-- The loop over the letters before `op`: these, the string from `op` on, and `bad_cap`. -/
def splitSets : CString → Bool → CString × CString × Bool
  | [], badCap => ([], [], badCap)
  | c :: cs, badCap =>
    if c = '+' ∨ c = '-' then ([], c :: cs, badCap)
    else
      let (sets, op, badCap) := splitSets cs (badCap || decide (c ∉ "peiba".toList))
      (c :: sets, op, badCap)

/-- One round of the loop over the sets. -/
def modifySet (op : Char) (name : CString) (cap : Nat) (p : Char) : Prog Unit :=
  match p with
  | 'p' | 'i' | 'e' =>
    let flag := if p = 'p' then .permitted else if p = 'e' then .effective else .inheritable
    let capval := decide (op = '+')
    (modifyCapSetting flag cap capval).bind fun ok =>
      if ok then .ret ()
      else .exit (.message ("-X: modifyCapSetting() failed while " ++
        (if capval then "raising" else "lowering") ++ " '" ++ String.ofList name ++ "' in '" ++
        String.ofList [p] ++ "'\n"))
  | 'b' =>
    if op = '+' then .exit (.message "Can't add capabilities to the bounding set\n")
    else orExit (.capbsetDrop cap) (.errExit "-X: PR_CAPBSET_DROP")
  | 'a' => orExit (.ambient (decide (op = '+')) cap) (.errExit "-X: PR_CAP_AMBIENT")
  | _ => .exit (.message ("Bad switch case ('-X'): " ++ String.ofList [p] ++ "\n"))

def modifyIndividualCapability (L : Libcap) (optval : CString) : Prog Unit :=
  match splitSets optval false with
  | (sets, op :: name, false) =>
    if name = [] then .exit (.message "Badly formed -X option\n")
    else
      match L.capFromName name with
      | none => .exit (.message "-X: bad capability name\n")
      | some cap => forEach sets (modifySet op name cap)
  | _ => .exit (.message "Badly formed -X option\n")

def SECBIT_NOROOT : Nat := 1
def SECBIT_NOROOT_LOCKED : Nat := 2
def SECBIT_NO_SETUID_FIXUP : Nat := 4
def SECBIT_NO_SETUID_FIXUP_LOCKED : Nat := 8
def SECBIT_KEEP_CAPS : Nat := 16
def SECBIT_KEEP_CAPS_LOCKED : Nat := 32
def SECBIT_NO_CAP_AMBIENT_RAISE : Nat := 64
def SECBIT_NO_CAP_AMBIENT_RAISE_LOCKED : Nat := 128

/-- The loop over the letters of `-b`, or the letter that it does not know. -/
def secbitsOf (secbits : Nat) : CString → Except Char Nat
  | [] => .ok secbits
  | p :: ps =>
    match p with
    | 'a' => secbitsOf (secbits ||| SECBIT_NO_CAP_AMBIENT_RAISE) ps
    | 'A' => secbitsOf (secbits ||| SECBIT_NO_CAP_AMBIENT_RAISE_LOCKED) ps
    | 'k' => secbitsOf (secbits ||| SECBIT_KEEP_CAPS) ps
    | 'K' => secbitsOf (secbits ||| SECBIT_KEEP_CAPS_LOCKED) ps
    | 'r' => secbitsOf (secbits ||| SECBIT_NOROOT) ps
    | 'R' => secbitsOf (secbits ||| SECBIT_NOROOT_LOCKED) ps
    | 's' => secbitsOf (secbits ||| SECBIT_NO_SETUID_FIXUP) ps
    | 'S' => secbitsOf (secbits ||| SECBIT_NO_SETUID_FIXUP_LOCKED) ps
    | '0' => secbitsOf 0 ps
    | _ => .error p

def badSecbit (p : Char) : Exit :=
  .message ("Unexpected value for '-b' (securebits flag): " ++ String.ofList [p] ++ "\n")

def setSecurebits (optval : CString) : Prog Unit :=
  match secbitsOf 0 optval with
  | .error p => .exit (badSecbit p)
  | .ok secbits => orExit (.setSecurebits secbits) (.errExit "prctl-PR_SET_SECUREBITS")

/-- The string before the first comma, and the one behind it. -/
def atComma (s : CString) : Option (CString × CString) :=
  match s.dropWhile (· ≠ ',') with
  | [] => none
  | _ :: rest => some (s.takeWhile (· ≠ ','), rest)

def setProcessUids (optval : CString) : Prog Unit :=
  match atComma optval with
  | none => expected
  | some (ruid, rest) =>
    match atComma rest with
    | none => expected
    | some (euid, suid) =>
      orExit (.setresuid (unsignedOf ruid) (unsignedOf euid) (unsignedOf suid))
        (.errExit "-S failed (setresuid)")
where
  expected :=
    .exit (.message ("Expected three comma-separated UIDs: -S " ++ String.ofList optval ++ "\n"))

/-- `snprintf(buf, sizeof(buf), "[-d %d] ", display_cnt)` with a `buf` of 10 bytes. -/
def displayPrefix (displayCnt : Nat) : List Char :=
  ("[-d ".toList ++ Nat.toDigits 10 displayCnt ++ "] ".toList).take 9

def setCaps (L : Libcap) (val : CString) : Prog Unit :=
  match L.capFromText val with
  | none => .exit (.errExit "-x: cap_from_text")
  | some caps =>
    (orExit (.capSetProc (some caps)) (.errExit "-x: cap_set_proc()")).bind fun _ => ignore .capFree

/-- An argument that is used as a string. -/
def deref (val : Option CString) (f : CString → Prog Unit) : Prog Unit :=
  match val with
  | none => .exit .nullPointer
  | some val => f val

/-- One round of the loop over the options, where `displayCnt` counts this one if it is `d`. -/
def performOption (L : Libcap) (displayCnt : Nat) (o : OptionList) : Prog Unit :=
  match o.opt with
  | 'a' => raiseInheritableAndAmbientCaps L true
  | 'b' => deref o.val setSecurebits
  | 'd' => ignore (.displayCredsAndCaps (displayPrefix displayCnt))
  | 'h' => raiseInheritableAndAmbientCaps L false
  | 's' => deref o.val fun val =>
      let newuid := unsignedOf val
      orExit (.setresuid newuid newuid newuid) (.errExit "setresuid")
  | 'S' => deref o.val setProcessUids
  | 'w' => deref o.val fun val => ignore (.sleep (unsignedOf val))
  | 'x' => deref o.val (setCaps L)
  | 'X' => deref o.val (modifyIndividualCapability L)
  | opt => ignore (.unexpected opt)

def performFrom (L : Libcap) (displayCnt : Nat) : List OptionList → Prog Unit
  | [] => .ret ()
  | o :: os =>
    let displayCnt := if o.opt = 'd' then displayCnt + 1 else displayCnt
    (performOption L displayCnt o).bind fun _ => performFrom L displayCnt os

def performRepeatableOptions (L : Libcap) (opts : CmdOptions) : Prog Unit :=
  performFrom L 0 opts.optList

end Tlpi.UsernsChildExec
