import Tlpi.Lib.Machine
import Tlpi.Namespaces.UsernsChildExec

/-!
# The maps of the child (`namespaces/userns_child_exec.c`, `namespaces/userns_functions.c`)

The parent writes the UID and GID maps of the child while the child waits for the end of file on a
pipe; it comes when the parent has closed its end, or has terminated. The command that the child
executes may take any number of steps, or never end.
-/

namespace Tlpi.UsernsChildMaps

open Tlpi.Num (CString)
open UsernsChildExec (CmdOptions Libcap Prog performRepeatableOptions)
open CallTree

def MAP_BUF_SIZE : Nat := 100

/-- The calls of the parent on a file of `/proc/PID`; `enoent` is its look at `errno`. -/
inductive MapCall where
  | open (file : CString)
  | write (file text : CString)
  | close (file : CString)
  | enoent (file : CString)
  deriving DecidableEq, Repr

/-- The message of `errExit`. -/
abbrev MapProg := CallTree MapCall String

/-- The records of a map, one on each line. -/
def records (mapping : CString) : CString := mapping.map fun c => if c = ',' then '\n' else c

def updateMap (mapping mapFile : CString) : MapProg Bool :=
  call (.open mapFile) fun ok =>
    if ok then
      call (.write mapFile (records mapping)) fun ok => call (.close mapFile) fun _ => ret ok
    else ret false

def procPath (childPid : Nat) (name : String) : CString :=
  "/proc/".toList ++ Nat.toDigits 10 childPid ++ '/' :: name.toList

/-- Without the file there is nothing to deny. -/
def procSetgroupsWrite (childPid : Nat) (str : CString) : MapProg Bool :=
  let path := procPath childPid "setgroups"
  call (.open path) fun ok =>
    if ok then call (.write path str) fun ok => call (.close path) fun _ => ret ok
    else call (.enoent path) fun enoent => ret enoent

def orErrExit (p : MapProg Bool) (msg : String) : MapProg Unit :=
  p.bind fun ok => if ok then ret () else exit msg

/-- What `snprintf` puts into `map_buf`. -/
def rootMap (id : BitVec 32) : CString :=
  ("0 ".toList ++ Nat.toDigits 10 id.toNat ++ " 1".toList).take (MAP_BUF_SIZE - 1)

/-- The map that the options ask for, where `id` is the user or group of the parent. -/
def mapOf (opts : CmdOptions) (map : Option CString) (id : BitVec 32) : CString :=
  if opts.createRootMappings then rootMap id else map.getD []

def updateChildMaps (opts : CmdOptions) (childPid : Nat) (uid gid : BitVec 32) : MapProg Unit :=
  (if opts.uidMap.isSome ∨ opts.createRootMappings then
    orErrExit (updateMap (mapOf opts opts.uidMap uid) (procPath childPid "uid_map"))
      "update_map: uid_map"
  else ret ()).bind fun _ =>
    if opts.gidMap.isSome ∨ opts.createRootMappings then
      (if opts.denySetgroups then
        orErrExit (procSetgroupsWrite childPid "deny".toList) "proc_setgroups_write"
      else ret ()).bind fun _ =>
        orErrExit (updateMap (mapOf opts opts.gidMap gid) (procPath childPid "gid_map"))
          "update_map: gid_map"
    else ret ()

/-- What a call does to the files that have been written, one entry for each write. The files that
`missing` names do not exist. -/
def mapStep (missing : CString → Bool) (writes : List (CString × CString)) :
    MapCall → Bool → Option (List (CString × CString))
  | .open file, ok => if ok ∧ missing file then none else some writes
  | .write file text, ok => some (if ok then writes ++ [(file, text)] else writes)
  | .close _, _ => some writes
  | .enoent file, ok => if ok = missing file then some writes else none

inductive Parent where
  /-- In `update_child_maps()`. -/
  | maps (p : MapProg Unit)
  | close
  | waitpid
  | exited (ok : Bool)

inductive Child where
  | start
  | read
  /-- In `perform_repeatable_options()`, or before `execvp()`. -/
  | options (p : Prog Unit)
  /-- Executing the command, with the steps that are left if it ends. -/
  | command (left : Nat)
  | exited

structure State where
  parent : Parent
  child : Child
  writes : List (CString × CString)

/-- The parent has the write end of the pipe open. -/
def Parent.writer : Parent → Bool
  | .maps _ | .close => true
  | .waitpid | .exited _ => false

/-- A step of the process says how its call ends. -/
inductive Label where
  | parent (ok : Bool)
  | child (ok : Bool)

def stepParent (missing : CString → Bool) (s : State) (ok : Bool) : Option State :=
  match s.parent, s.child with
  | .maps (.ret _), _ => some { s with parent := .close }
  | .maps (.exit _), _ => some { s with parent := .exited false }
  | .maps (.call c next), _ =>
    (mapStep missing s.writes c ok).map fun writes =>
      { s with parent := .maps (next ok), writes := writes }
  | .close, _ => some { s with parent := .waitpid }
  | .waitpid, .exited => some { s with parent := .exited true }
  | _, _ => none

/-- `command` is the number of steps of the command, `none` if it never ends. -/
def stepChild (L : Libcap) (opts : CmdOptions) (command : Option Nat) (s : State) (ok : Bool) :
    Option State :=
  match s.child with
  | .start => some { s with child := .read }
  | .read =>
    if s.parent.writer then none
    else some { s with child := .options (performRepeatableOptions L opts) }
  | .options (.ret _) =>
    some { s with child := if ok then .command (command.getD 0) else .exited }
  | .options (.exit _) => some { s with child := .exited }
  | .options (.call _ next) => some { s with child := .options (next ok) }
  | .command left =>
    match command, left with
    | none, _ => some s
    | some _, left + 1 => some { s with child := .command left }
    | some _, 0 => some { s with child := .exited }
  | .exited => none

def step (missing : CString → Bool) (L : Libcap) (opts : CmdOptions) (command : Option Nat)
    (s : State) : Label → Option State
  | .parent ok => stepParent missing s ok
  | .child ok => stepChild L opts command s ok

def machine (missing : CString → Bool) (L : Libcap) (opts : CmdOptions) (command : Option Nat) :
    Machine State Label :=
  ⟨step missing L opts command⟩

/-- After `clone()`. -/
def State.init (opts : CmdOptions) (childPid : Nat) (uid gid : BitVec 32) : State :=
  ⟨.maps (updateChildMaps opts childPid uid gid), .start, []⟩

/-! ### The writes of the parent -/

section

variable {missing : CString → Bool} {writes W : List (CString × CString)} {p : MapProg Bool}
  {Q : List (CString × CString) → Prop}

/-- A user or group ID always fits into the buffer. -/
theorem rootMap_eq (id : BitVec 32) :
    rootMap id = "0 ".toList ++ Nat.toDigits 10 id.toNat ++ " 1".toList := by
  have hlen : (Nat.toDigits 10 id.toNat).length ≤ 10 :=
    (Nat.length_toDigits_le_iff (by decide) (by decide)).mpr (by have := id.isLt; omega)
  refine List.take_of_length_le ?_
  rw [List.length_append, List.length_append]
  have hzero : "0 ".toList.length = 2 := rfl
  have hone : " 1".toList.length = 2 := rfl
  rw [MAP_BUF_SIZE]
  omega

/-- The files that the options ask for, in the order in which they are written. -/
def mapWrites (missing : CString → Bool) (opts : CmdOptions) (childPid : Nat)
    (uid gid : BitVec 32) : List (CString × CString) :=
  let uidMap := [(procPath childPid "uid_map", records (mapOf opts opts.uidMap uid))]
  let setgroups := [(procPath childPid "setgroups", "deny".toList)]
  let gidMap := [(procPath childPid "gid_map", records (mapOf opts opts.gidMap gid))]
  (if opts.uidMap.isSome ∨ opts.createRootMappings then uidMap else []) ++
    if opts.gidMap.isSome ∨ opts.createRootMappings then
      (if opts.denySetgroups ∧ ¬missing (procPath childPid "setgroups") then setgroups else []) ++
        gidMap
    else []

theorem wp_orErrExit {msg : String}
    (hp : p.Wp (mapStep missing) (· <+: W) (fun ok ws => ws <+: W ∧ (ok = true → Q ws)) writes) :
    (orErrExit p msg).Wp (mapStep missing) (· <+: W) (fun _ => Q) writes := by
  refine Wp.bind hp fun ok ws h => ?_
  cases ok with
  | false => exact h.1
  | true => exact h.2 rfl

theorem wp_updateMap {mapping file : CString} (h : writes ++ [(file, records mapping)] <+: W) :
    (updateMap mapping file).Wp (mapStep missing) (· <+: W)
      (fun ok ws => ws <+: W ∧ (ok = true → ws = writes ++ [(file, records mapping)])) writes := by
  have hnow : writes <+: W := (List.prefix_append ..).trans h
  refine ⟨hnow, fun ok ws hopen => ?_⟩
  obtain rfl : writes = ws := by
    simp only [mapStep, Option.ite_none_left_eq_some, Option.some.injEq] at hopen
    exact hopen.2
  cases ok with
  | false => exact ⟨hnow, fun h => by cases h⟩
  | true =>
    refine ⟨hnow, fun ok ws hwrite => ?_⟩
    cases ok with
    | false =>
      cases hwrite
      refine ⟨hnow, fun _ ws hclose => ?_⟩
      cases hclose
      exact ⟨hnow, fun h => by cases h⟩
    | true =>
      cases hwrite
      refine ⟨h, fun _ ws hclose => ?_⟩
      cases hclose
      exact ⟨h, fun _ => rfl⟩

theorem wp_procSetgroupsWrite {childPid : Nat} {str : CString}
    (h : writes ++ (if missing (procPath childPid "setgroups") then []
      else [(procPath childPid "setgroups", str)]) <+: W) :
    (procSetgroupsWrite childPid str).Wp (mapStep missing) (· <+: W)
      (fun ok ws => ws <+: W ∧ (ok = true → ws = writes ++
        if missing (procPath childPid "setgroups") then []
        else [(procPath childPid "setgroups", str)])) writes := by
  have hnow : writes <+: W := (List.prefix_append ..).trans h
  refine ⟨hnow, fun ok ws hopen => ?_⟩
  simp only [mapStep, Option.ite_none_left_eq_some, Option.some.injEq] at hopen
  obtain ⟨hexists, rfl⟩ := hopen
  cases ok with
  | false =>
    refine ⟨hnow, fun ok ws henoent => ?_⟩
    simp only [mapStep, Option.ite_none_right_eq_some, Option.some.injEq] at henoent
    obtain ⟨hmissing, rfl⟩ := henoent
    exact ⟨hnow, fun hok => by rw [← hmissing, if_pos hok, List.append_nil]⟩
  | true =>
    rw [if_neg fun h => hexists ⟨rfl, h⟩] at h ⊢
    refine ⟨hnow, fun ok ws hwrite => ?_⟩
    cases ok with
    | false =>
      cases hwrite
      refine ⟨hnow, fun _ ws hclose => ?_⟩
      cases hclose
      exact ⟨hnow, fun h => by cases h⟩
    | true =>
      cases hwrite
      refine ⟨h, fun _ ws hclose => ?_⟩
      cases hclose
      exact ⟨h, fun _ => rfl⟩

/-- Wherever the parent is, it has made the first of the writes; it returns after the last one. -/
theorem wp_updateChildMaps (opts : CmdOptions) (childPid : Nat) (uid gid : BitVec 32) :
    (updateChildMaps opts childPid uid gid).Wp (mapStep missing)
      (· <+: mapWrites missing opts childPid uid gid)
      (fun _ ws => ws = mapWrites missing opts childPid uid gid) [] := by
  refine Wp.bind (Q := fun _ ws => ws = if opts.uidMap.isSome ∨ opts.createRootMappings then
    [(procPath childPid "uid_map", records (mapOf opts opts.uidMap uid))] else []) ?_ ?_
  · split
    · next hu =>
      refine wp_orErrExit (wp_updateMap ?_)
      rw [mapWrites, if_pos hu]
      exact List.prefix_append ..
    · exact rfl
  · rintro _ ws rfl
    split
    · next hg =>
      refine Wp.bind (Q := fun _ ws => ws ++
        [(procPath childPid "gid_map", records (mapOf opts opts.gidMap gid))] =
          mapWrites missing opts childPid uid gid) ?_ fun _ ws h => ?_
      · by_cases hdeny : opts.denySetgroups
        · rw [if_pos hdeny]
          have heq : mapWrites missing opts childPid uid gid =
              (if opts.uidMap.isSome ∨ opts.createRootMappings then
                [(procPath childPid "uid_map", records (mapOf opts opts.uidMap uid))] else []) ++
              (if missing (procPath childPid "setgroups") then []
                else [(procPath childPid "setgroups", "deny".toList)]) ++
              [(procPath childPid "gid_map", records (mapOf opts opts.gidMap gid))] := by
            simp only [mapWrites, if_pos hg, hdeny, true_and]
            cases missing (procPath childPid "setgroups") <;> simp
          rw [heq]
          refine wp_orErrExit (Wp.mono (wp_procSetgroupsWrite (List.prefix_append ..)) ?_)
          exact fun ok ws h => ⟨h.1, fun hok => by rw [h.2 hok]⟩
        · rw [if_neg hdeny]
          simp [Wp, mapWrites, if_pos hg, hdeny]
      · rw [← h]
        exact wp_orErrExit (wp_updateMap List.prefix_rfl)
    · next hg => simp [Wp, mapWrites, hg]

end

/-! ### The parent and the child -/

section

variable {missing : CString → Bool} {L : Libcap} {opts : CmdOptions} {childPid : Nat}
  {command : Option Nat} {uid gid : BitVec 32} {W : List (CString × CString)} {s t : State}

/-- What the parent has written, by where it is. -/
def Parent.Wrote (missing : CString → Bool) (W writes : List (CString × CString)) : Parent → Prop
  | .maps p => p.Wp (mapStep missing) (· <+: W) (fun _ ws => ws = W) writes
  | .close | .waitpid | .exited true => writes = W
  | .exited false => writes <+: W

/-- The child has not come out of its `read` yet. -/
def Child.waits : Child → Bool
  | .start | .read => true
  | _ => false

structure Inv (missing : CString → Bool) (W : List (CString × CString)) (s : State) : Prop where
  wrote : s.parent.Wrote missing W s.writes
  child : s.parent.writer = true → s.child.waits = true

theorem inv_init : Inv missing (mapWrites missing opts childPid uid gid)
    (.init opts childPid uid gid) where
  wrote := wp_updateChildMaps opts childPid uid gid
  child _ := rfl

theorem Inv.stepParent {ok : Bool} (I : Inv missing W s)
    (hn : stepParent missing s ok = some t) : Inv missing W t := by
  have hw := I.wrote
  rw [UsernsChildMaps.stepParent] at hn
  split at hn
  · next a hp =>
    cases hn
    rw [hp] at hw
    exact ⟨hw, fun _ => I.child (by rw [hp]; rfl)⟩
  · next e hp =>
    cases hn
    rw [hp] at hw
    exact ⟨hw, fun h => by cases h⟩
  · next c next hp =>
    obtain ⟨writes, hmap, rfl⟩ := Option.map_eq_some_iff.mp hn
    rw [hp] at hw
    exact ⟨hw.2 ok writes hmap, fun _ => I.child (by rw [hp]; rfl)⟩
  · next hp =>
    cases hn
    rw [hp] at hw
    exact ⟨hw, fun h => by cases h⟩
  · next hp hc =>
    cases hn
    rw [hp] at hw
    exact ⟨hw, fun h => by cases h⟩
  · cases hn

theorem Inv.stepChild {ok : Bool} (I : Inv missing W s)
    (hn : stepChild L opts command s ok = some t) : Inv missing W t := by
  have hkeep {c : Child} (hc : s.child.waits = true → c.waits = true ∨ s.parent.writer = false) :
      Inv missing W { s with child := c } := by
    refine ⟨I.wrote, fun h => ?_⟩
    exact (hc (I.child h)).resolve_right fun hw => Bool.noConfusion (h.symm.trans hw)
  rw [UsernsChildMaps.stepChild] at hn
  split at hn
  · cases hn
    exact hkeep fun _ => .inl rfl
  · simp only [Option.ite_none_left_eq_some, Option.some.injEq] at hn
    obtain ⟨hw, rfl⟩ := hn
    exact hkeep fun _ => .inr (Bool.eq_false_iff.mpr hw)
  · next hc =>
    cases hn
    exact hkeep fun h => by rw [hc] at h; cases h
  · next hc =>
    cases hn
    exact hkeep fun h => by rw [hc] at h; cases h
  · next hc =>
    cases hn
    exact hkeep fun h => by rw [hc] at h; cases h
  · next left hc =>
    split at hn
    · cases hn
      exact I
    · cases hn
      exact hkeep fun h => by rw [hc] at h; cases h
    · cases hn
      exact hkeep fun h => by rw [hc] at h; cases h
  · cases hn

theorem Inv.step {a : Label} (I : Inv missing W s)
    (hn : (machine missing L opts command).next s a = some t) : Inv missing W t := by
  cases a with
  | parent ok => exact I.stepParent hn
  | child ok => exact I.stepChild hn

/-- The maps come first: once the child is past its `read`, the parent has made all of its writes or
has failed. -/
theorem Inv.before (I : Inv missing W s) (hc : s.child.waits = false) :
    s.writes = W ∨ s.parent = .exited false ∧ s.writes <+: W := by
  have hw := I.wrote
  cases hp : s.parent with
  | maps p => exact Bool.noConfusion (hc.symm.trans (I.child (by rw [hp]; rfl)))
  | close => exact Bool.noConfusion (hc.symm.trans (I.child (by rw [hp]; rfl)))
  | waitpid =>
    rw [hp] at hw
    exact .inl hw
  | exited ok =>
    rw [hp] at hw
    cases ok
    · exact .inr ⟨rfl, hw⟩
    · exact .inl hw

/-! ### The runs -/

def Parent.rank : Parent → Nat
  | .maps p => p.depth + 3
  | .close => 2
  | .waitpid => 1
  | .exited _ => 0

/-- `n` is the number of steps of the command. -/
def Child.rank (L : Libcap) (opts : CmdOptions) (n : Nat) : Child → Nat
  | .start => (performRepeatableOptions L opts).depth + n + 4
  | .read => (performRepeatableOptions L opts).depth + n + 3
  | .options p => p.depth + n + 2
  | .command left => left + 1
  | .exited => 0

def State.rank (L : Libcap) (opts : CmdOptions) (n : Nat) (s : State) : Nat :=
  s.parent.rank + s.child.rank L opts n

theorem rank_stepParent {ok : Bool} {n : Nat} (hn : stepParent missing s ok = some t) :
    t.rank L opts n < s.rank L opts n := by
  rw [stepParent] at hn
  split at hn
  · next hp => cases hn; simp [State.rank, hp, Parent.rank]
  · next hp => cases hn; simp [State.rank, hp, Parent.rank]
  · next c next hp =>
    obtain ⟨writes, -, rfl⟩ := Option.map_eq_some_iff.mp hn
    have := depth_next c next ok
    simp only [State.rank, hp, Parent.rank]
    omega
  · next hp => cases hn; simp [State.rank, hp, Parent.rank]
  · next hp hc => cases hn; simp [State.rank, hp, Parent.rank]
  · cases hn

/-- A command that ends is left with fewer and fewer steps. -/
theorem rank_stepChild {ok : Bool} {n : Nat} (hn : stepChild L opts (some n) s ok = some t) :
    t.rank L opts n < s.rank L opts n := by
  rw [stepChild] at hn
  split at hn
  · next hc => cases hn; simp [State.rank, hc, Child.rank]
  · next hc =>
    simp only [Option.ite_none_left_eq_some, Option.some.injEq] at hn
    obtain ⟨-, rfl⟩ := hn
    simp [State.rank, hc, Child.rank]
  · next hc =>
    cases hn
    cases ok <;> simp [State.rank, hc, Child.rank, depth]
  · next hc => cases hn; simp [State.rank, hc, Child.rank]
  · next c next hc =>
    cases hn
    have := depth_next c next ok
    simp only [State.rank, hc, Child.rank]
    omega
  · next left hc =>
    split at hn
    · contradiction
    · cases hn; simp [State.rank, hc, Child.rank]
    · cases hn; simp [State.rank, hc, Child.rank]
  · cases hn

theorem rank_step {a : Label} {n : Nat} (hn : (machine missing L opts (some n)).next s a = some t) :
    t.rank L opts n < s.rank L opts n := by
  cases a with
  | parent ok => exact rank_stepParent hn
  | child ok => exact rank_stepChild hn

/-- Some result is possible for every call. -/
theorem exists_mapStep (missing : CString → Bool) (writes : List (CString × CString))
    (c : MapCall) : ∃ ok ws, mapStep missing writes c ok = some ws := by
  cases c with
  | «open» file => exact ⟨false, writes, by simp [mapStep]⟩
  | write file text => exact ⟨true, _, rfl⟩
  | close file => exact ⟨true, _, rfl⟩
  | enoent file => exact ⟨missing file, writes, if_pos rfl⟩

/-- The parent does not wait for anything while it has the pipe open. -/
theorem exists_stepParent (hw : s.parent.writer = true) :
    ∃ ok t, stepParent missing s ok = some t := by
  cases hp : s.parent with
  | maps p =>
    cases p with
    | ret a => exact ⟨true, _, by rw [stepParent, hp]⟩
    | exit e => exact ⟨true, _, by rw [stepParent, hp]⟩
    | call c next =>
      obtain ⟨ok, ws, hws⟩ := exists_mapStep missing s.writes c
      refine ⟨ok, { s with parent := .maps (next ok), writes := ws }, ?_⟩
      simp only [stepParent, hp, hws, Option.map_some]
  | close => exact ⟨true, _, by rw [stepParent, hp]⟩
  | waitpid => rw [hp] at hw; cases hw
  | exited ok => rw [hp] at hw; cases hw

/-- The two processes never wait for each other. -/
theorem exists_step (s : State) :
    (∃ a t, (machine missing L opts command).next s a = some t) ∨
      s.child = .exited ∧ ∃ ok, s.parent = .exited ok := by
  by_cases hw : s.parent.writer = true
  · obtain ⟨ok, t, hn⟩ := exists_stepParent hw
    exact .inl ⟨.parent ok, t, hn⟩
  have hchild : s.child ≠ .exited → ∃ t, stepChild L opts command s true = some t := by
    intro hne
    rw [stepChild]
    split
    · exact ⟨_, rfl⟩
    · exact ⟨_, if_neg hw⟩
    · exact ⟨_, rfl⟩
    · exact ⟨_, rfl⟩
    · exact ⟨_, rfl⟩
    · split <;> exact ⟨_, rfl⟩
    · exact absurd ‹_› hne
  by_cases hc : s.child = .exited
  · cases hp : s.parent with
    | maps p => exact absurd (by rw [hp]; rfl) hw
    | close => exact absurd (by rw [hp]; rfl) hw
    | waitpid =>
      refine .inl ⟨.parent true, { s with parent := .exited true }, ?_⟩
      simp only [machine, step, stepParent, hp, hc]
    | exited ok => exact .inr ⟨hc, ok, rfl⟩
  · obtain ⟨t, hn⟩ := hchild hc
    exact .inl ⟨.child true, t, hn⟩

/-- The child performs its options and executes the command only after the parent has written all of
the maps in order, or has failed at one of them; in both cases the two come to an end, if the
command does. -/
theorem maps_before_options (missing : CString → Bool) (L : Libcap) (opts : CmdOptions)
    (command : Option Nat) (childPid : Nat) (uid gid : BitVec 32) :
    (∀ s, (machine missing L opts command).Reachable (.init opts childPid uid gid) s →
        s.child.waits = false → s.writes = mapWrites missing opts childPid uid gid ∨
          s.parent = .exited false ∧ s.writes <+: mapWrites missing opts childPid uid gid) ∧
      ∀ n, command = some n → (machine missing L opts command).EndsWithin
        (.init opts childPid uid gid) ((State.init opts childPid uid gid).rank L opts n) fun s =>
          s.child = .exited ∧ ∃ ok, s.parent = .exited ok := by
  refine ⟨fun s hs => (hs.invariant inv_init fun _ _ _ I _ hn => I.step hn).before, ?_⟩
  rintro n rfl
  exact Machine.EndsWithin.of_rank (fun _ _ _ I hn => I.step hn) (fun _ _ _ _ hn => rank_step hn)
    (fun s _ => exists_step s) inv_init

end

end Tlpi.UsernsChildMaps
