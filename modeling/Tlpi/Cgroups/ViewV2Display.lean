import Mathlib.Data.Int.Order.Basic
import Tlpi.Cgroups.ViewV2Cgroups
import Tlpi.Lib.Decimal
import Tlpi.Lib.GoPath

/-!
# Displaying subtrees of cgroups (`view_v2_cgroups.go`)

`main` walks the directories below each of its arguments. The level of a cgroup is computed from
pathnames: the slashes of its path less those of the argument. This is its depth, unless the
argument is the current directory or the root, whose name is no part of the names below it.
-/

namespace Tlpi.ViewV2Cgroups

open Go

/-- What `Walk` finds under a name: no directory, with its content if it can be read, or a directory
with its owner and its entries in the order of their names. -/
inductive Entry where
  | file (content : Option Str)
  | dir (uid : Nat) (readable : Bool) (entries : List (Str × Entry))

inductive Error where
  | lstat (path : Str)
  | readDirNames (path : Str)
  | readFile (path : Str)
  | getTgid (tid : Int)
  | getPolicy (tid : Int)
  deriving DecidableEq

/-- What is printed, and the error that ends it. -/
structure Out where
  text : Str
  err : Option Error
  deriving DecidableEq

namespace Out

def print (s : Str) : Out := ⟨s, none⟩

def fail (e : Error) : Out := ⟨[], some e⟩

/-- `b` after `a`, unless `a` ends with an error. -/
def seq (a b : Out) : Out :=
  match a.err with
  | none => ⟨a.text ++ b.text, b.err⟩
  | some e => ⟨a.text, some e⟩

def all (outs : List Out) : Out := outs.foldr seq (print [])

end Out

structure CmdLineOptions where
  useColor : Bool
  showPids : Bool
  showTids : Bool
  showOwner : Bool

/-- The width of the terminal, `/proc/TID/status` and the scheduling policies of the threads. -/
structure Host where
  terminalWidth : Nat
  status : Int → Option Str
  policy : Int → Option Nat

/-! ### Colours -/

def ESC : Str := [0x1b]
def RED : Str := ESC ++ ascii "[31m"
def BOLD : Str := ESC ++ ascii "[1m"
def LIGHT_BLUE : Str := ESC ++ ascii "[38;5;51m"
def GREEN : Str := ESC ++ ascii "[92m"
def MAGENTA : Str := ESC ++ ascii "[35m"
def LIGHT_PURPLE : Str := ESC ++ ascii "[38;5;93m"
def NORMAL : Str := ESC ++ ascii "(B" ++ ESC ++ ascii "[m"
def BRIGHT_YELLOW : Str := ESC ++ ascii "[93m"
def REVERSE : Str := ESC ++ ascii "[7m"
def UNDERLINE : Str := ESC ++ ascii "[4m"

def cgroupColor (cgroupType : Str) : Str :=
  if cgroupType = ascii "domain threaded" then UNDERLINE ++ BOLD ++ GREEN
  else if cgroupType = ascii "threaded" then GREEN
  else if cgroupType = ascii "domain invalid" then REVERSE ++ LIGHT_PURPLE
  else []

def cgroupAbbrev (cgroupType : Str) : Str :=
  if cgroupType = ascii "root" then ascii "[/]"
  else if cgroupType = ascii "domain" then ascii "[d]"
  else if cgroupType = ascii "domain threaded" then ascii "[dt]"
  else if cgroupType = ascii "threaded" then ascii "[t]"
  else if cgroupType = ascii "domain invalid" then ascii "[inv]"
  else []

/-- Each line with `color` behind its leading blanks and `NORMAL` at its end. -/
def colorEachLine (buf color : Str) : Str :=
  [10].intercalate ((buf.splitOn 10).map fun line =>
    line.takeWhile (· = 32) ++ color ++ line.dropWhile (· = 32) ++ NORMAL)

/-! ### Reading -/

/-- `strings.TrimSpace`. -/
def trimSpace (s : Str) : Str :=
  let blank (r : Rune) : Bool := isSpace r.val
  (((runes s).dropWhile blank).rdropWhile blank).flatMap Rune.bytes

/-- The digits of `s`, most significant first, behind the number `n`. -/
def digitsFrom (n : Nat) : Str → Option Nat
  | [] => some n
  | b :: s => if 48 ≤ b ∧ b ≤ 57 then digitsFrom (n * 10 + (b.toNat - 48)) s else none

/-- `strconv.Atoi` without its error: 0 for what is no number, and the nearest `int` for a number
that is too large. -/
def atoi (s : Str) : Int :=
  let (neg, digits) := match s with
    | 43 :: s => (false, s)
    | 45 :: s => (true, s)
    | s => (false, s)
  if digits = [] then 0
  else
    match digitsFrom 0 digits with
    | none => 0
    | some n => if neg then max (-n) (-2 ^ 63) else min n (2 ^ 63 - 1)

def itoa (n : Int) : Str := (Num.fmtInt n).map fun c => c.toNat.toUInt8

/-- The file `name` in the directory `path`. -/
def readFile (path : Str) (es : List (Str × Entry)) (name : Str) : Except Error Str :=
  match es.lookup name with
  | some (.file (some content)) => .ok content
  | _ => .error (.readFile (path ++ slash :: name))

def getSortedIntsFrom (path : Str) (es : List (Str × Entry)) (name : Str) :
    Except Error (List Int) := do
  let buf ← readFile path es name
  if buf = [] then return []
  return (((trimSpace buf).splitOn 10).map atoi).mergeSort

/-- The number behind `Tgid:` in the first line that starts with it. -/
def getTgid (host : Host) (tid : Int) : Except Error Int :=
  match host.status tid with
  | none => .error (.getTgid tid)
  | some status =>
    match (status.splitOn 10).find? (ascii "Tgid:").isPrefixOf with
    | none => .error (.getTgid tid)
    | some line =>
      let value := (line.drop 5).dropWhile fun b => b = 32 ∨ b = 9
      .ok (atoi (value.takeWhile (· ≠ 58)))

/-- The policies `SCHED_FIFO`, `SCHED_RR` and `SCHED_DEADLINE` are realtime policies. -/
def getPolicy (host : Host) (tid : Int) : Except Error Bool :=
  match host.policy tid with
  | none => .error (.getPolicy tid)
  | some policy => .ok (policy = 6 ∨ policy = 1 ∨ policy = 2)

/-! ### Displaying one cgroup -/

def ofExcept : Except Error Str → Out
  | .ok s => .print s
  | .error e => .fail e

def displayProcesses (opts : CmdLineOptions) (path : Str) (es : List (Str × Entry)) (width : Int)
    (indent : Str) : Out :=
  ofExcept do
    let pids ← getSortedIntsFrom path es (ascii "cgroup.procs")
    if pids = [] then return []
    let buf := wrapText (Wrap.joined 32 (pids.map itoa) ++ ascii "\x7d") (ascii "PIDs: \x7b") width
      indent
    return (if opts.useColor then colorEachLine buf LIGHT_BLUE else buf) ++ [10]

/-- One thread in the list of threads. -/
def threadText (host : Host) (t : Int) : Except Error Str := do
  let tgid ← getTgid host t
  let isRealtime ← getPolicy host t
  return itoa t ++ (if isRealtime then ascii "*" else []) ++
    (if tgid ≠ t then ascii "-[" ++ itoa tgid ++ ascii "]" else [])

def displayThreads (opts : CmdLineOptions) (host : Host) (path : Str) (es : List (Str × Entry))
    (width : Int) (indent : Str) : Out :=
  ofExcept do
    let tids ← getSortedIntsFrom path es (ascii "cgroup.threads")
    if tids = [] then return []
    let texts ← tids.mapM (threadText host)
    let buf := wrapText (Wrap.joined 32 texts ++ ascii "\x7d") (ascii "TIDs: \x7b") width indent
    let marked := buf.flatMap fun b =>
      if b = 42 then RED ++ REVERSE ++ [b] ++ NORMAL ++ LIGHT_BLUE else [b]
    return (if opts.useColor then colorEachLine marked LIGHT_BLUE else buf) ++ [10]

def minDisplayWidth : Int := 32

def displayMembers (opts : CmdLineOptions) (host : Host) (path : Str) (es : List (Str × Entry))
    (cgroupType indent : Str) : Out :=
  let width : Int := max ((host.terminalWidth : Int) - indent.length) minDisplayWidth
  (if cgroupType ≠ ascii "threaded" ∧ opts.showPids then
    displayProcesses opts path es width indent else .print []).seq
  (if opts.showTids then displayThreads opts host path es width indent else .print [])

def displayControllers (opts : CmdLineOptions) (path : Str) (es : List (Str × Entry)) : Out :=
  ofExcept do
    let sc ← readFile path es (ascii "cgroup.subtree_control")
    let controllers := trimSpace sc
    if controllers = [] then return []
    let controllers := ascii "(" ++ controllers ++ ascii ")"
    return ascii "    " ++ (if opts.useColor then BRIGHT_YELLOW ++ controllers ++ NORMAL
      else controllers)

def displayCgroupOwnership (opts : CmdLineOptions) (uid : Nat) : Out :=
  let text := ascii "<UID: " ++ itoa uid ++ ascii ">"
  .print (if opts.useColor then MAGENTA ++ text ++ NORMAL else text)

/-- A cgroup at a level, under the name `p`. -/
def displayAt (opts : CmdLineOptions) (host : Host) (level : Nat) (p path : Str) (uid : Nat)
    (es : List (Str × Entry)) : Out :=
  let cgroupType := match readFile path es (ascii "cgroup.type") with
    | .error _ => ascii "root"
    | .ok ct => trimSpace ct
  let indent := List.replicate (4 * level) 32
  .all [.print (indent ++ cgroupColor cgroupType ++ p ++ NORMAL ++ ascii " " ++
      cgroupAbbrev cgroupType),
    displayControllers opts path es, .print [10],
    if opts.showOwner then
      .all [.print (indent ++ ascii "    "), displayCgroupOwnership opts uid, .print [10]]
    else .print [],
    displayMembers opts host path es cgroupType (indent ++ ascii "    ")]

/-- `len(strings.Split(path, "/"))`. -/
def slashCnt (path : Str) : Nat := (path.splitOn slash).length

def displayCgroup (opts : CmdLineOptions) (host : Host) (rootSlashCnt : Nat) (path : Str)
    (uid : Nat) (es : List (Str × Entry)) : Out :=
  let level : Int := slashCnt path - rootSlashCnt
  displayAt opts host level.toNat (if level > 0 then base path else path) path uid es

/-! ### Walking the directories -/

/-- `walkFn` for a directory, whose names could be read or not. -/
def walkFn (opts : CmdLineOptions) (host : Host) (rootSlashCnt : Nat) (path : Str) (uid : Nat)
    (readable : Bool) (es : List (Str × Entry)) : Out :=
  if readable then displayCgroup opts host rootSlashCnt path uid es else .fail (.readDirNames path)

mutual

/-- `filepath.Walk` below `path`. -/
def walk (opts : CmdLineOptions) (host : Host) (rootSlashCnt : Nat) (path : Str) : Entry → Out
  | .file _ => .print []
  | .dir uid readable es =>
    (walkFn opts host rootSlashCnt path uid readable es).seq
      (walkEntries opts host rootSlashCnt path es)

def walkEntries (opts : CmdLineOptions) (host : Host) (rootSlashCnt : Nat) (path : Str) :
    List (Str × Entry) → Out
  | [] => .print []
  | (name, e) :: es =>
    (walk opts host rootSlashCnt (join path name) e).seq
      (walkEntries opts host rootSlashCnt path es)

end

def walkArg (opts : CmdLineOptions) (host : Host) (lstat : Str → Option Entry) (f : Str) : Out :=
  match lstat (clean f) with
  | none => .fail (.lstat (clean f))
  | some e => walk opts host (slashCnt (clean f)) (clean f) e

def main (opts : CmdLineOptions) (host : Host) (lstat : Str → Option Entry) (args : List Str) :
    Out :=
  .all (args.map (walkArg opts host lstat))

/-! ### The tree -/

structure Cgroup where
  uid : Nat
  readable : Bool
  entries : List (Str × Entry)

namespace Entry

/-- The entry with a path of names. -/
def get : Entry → List Str → Option Entry
  | e, [] => some e
  | file _, _ :: _ => none
  | dir _ _ es, n :: ns => (es.lookup n).bind fun e => e.get ns

mutual

/-- The directories, each with the names that lead to it. -/
def cgroups : Entry → List (List Str × Cgroup)
  | file _ => []
  | dir uid readable es => ([], ⟨uid, readable, es⟩) :: cgroupsOf es

def cgroupsOf : List (Str × Entry) → List (List Str × Cgroup)
  | [] => []
  | (name, e) :: es => e.cgroups.map (fun c => (name :: c.1, c.2)) ++ cgroupsOf es

end

/-- The entries of a directory have names, in increasing order. -/
inductive Ok : Entry → Prop
  | file (content : Option Str) : Ok (file content)
  | dir {uid : Nat} {readable : Bool} {es : List (Str × Entry)} :
      (es.map Prod.fst).Pairwise (· < ·) → (∀ p ∈ es, IsName p.1) → (∀ p ∈ es, p.2.Ok) →
        Ok (dir uid readable es)

end Entry

/-- The levels that a path is short of: the name of the current directory or of the root is no part
of the names below it. -/
def lost (f : Str) : Nat := if clean f = dot ∨ clean f = [slash] then 1 else 0

/-- The path of the names `ns` below an argument. -/
def pathOf (f : Str) (ns : List Str) : Str := ns.foldl join (clean f)

variable {opts : CmdLineOptions} {host : Host} {f : Str} {ns ms : List Str} {n : Str} {e : Entry}
  {es : List (Str × Entry)} {c : Cgroup} {a b d : Out} {outs outs' : List Out}

namespace Out

@[simp] theorem nil_seq (a : Out) : (print []).seq a = a := rfl

@[simp] theorem seq_nil (a : Out) : a.seq (print []) = a := by
  obtain ⟨text, _ | e⟩ := a <;> simp [seq, print]

theorem seq_assoc (a b d : Out) : (a.seq b).seq d = a.seq (b.seq d) := by
  obtain ⟨text, _ | e⟩ := a
  · obtain ⟨text', _ | e⟩ := b <;> simp [seq]
  · rfl

@[simp] theorem all_nil : all [] = print [] := rfl

@[simp] theorem all_cons (a : Out) (outs : List Out) : all (a :: outs) = a.seq (all outs) := rfl

theorem all_append (outs outs' : List Out) : all (outs ++ outs') = (all outs).seq (all outs') := by
  induction outs with
  | nil => rfl
  | cons a outs ih => rw [List.cons_append, all_cons, ih, all_cons, seq_assoc]

theorem all_flatMap {α : Type} (l : List α) (g : α → List Out) :
    all (l.flatMap g) = all (l.map fun x => all (g x)) := by
  induction l with
  | nil => rfl
  | cons x l ih => rw [List.flatMap_cons, all_append, ih, List.map_cons, all_cons]

end Out

theorem pathOf_concat (f : Str) (ns : List Str) (n : Str) :
    pathOf f (ns ++ [n]) = join (pathOf f ns) n := by
  rw [pathOf, List.foldl_append]
  rfl

/-- The walk visits the directories in the order of `cgroups`. -/
theorem walk_eq (opts : CmdLineOptions) (host : Host) (f : Str) (cnt : Nat) (he : e.Ok)
    (ns : List Str) :
    walk opts host cnt (pathOf f ns) e = .all (e.cgroups.map fun c =>
      walkFn opts host cnt (pathOf f (ns ++ c.1)) c.2.uid c.2.readable c.2.entries) := by
  induction he generalizing ns with
  | file content => rfl
  | @dir uid readable es hsorted hnames hes ih =>
    have hentries : walkEntries opts host cnt (pathOf f ns) es =
        .all ((Entry.cgroupsOf es).map fun c =>
          walkFn opts host cnt (pathOf f (ns ++ c.1)) c.2.uid c.2.readable c.2.entries) := by
      clear hsorted hnames hes
      induction es with
      | nil => rfl
      | cons p es ihes =>
        obtain ⟨name, e⟩ := p
        obtain ⟨he, hes⟩ := List.forall_mem_cons.mp ih
        rw [walkEntries, Entry.cgroupsOf, List.map_append, Out.all_append, ← ihes hes,
          ← pathOf_concat, he, List.map_map]
        simp only [Function.comp_def, List.append_assoc, List.singleton_append]
    rw [walk, Entry.cgroups, List.map_cons, Out.all_cons, hentries, List.append_nil]

/-! ### Which directories these are -/

namespace Entry

theorem mem_cgroupsOf : (ms, c) ∈ cgroupsOf es ↔
    ∃ p ∈ es, ∃ rs, ms = p.1 :: rs ∧ (rs, c) ∈ p.2.cgroups := by
  induction es with
  | nil => simp [cgroupsOf]
  | cons p es ih =>
    obtain ⟨name, e⟩ := p
    rw [cgroupsOf, List.mem_append, ih, List.exists_mem_cons_iff]
    refine or_congr_left ?_
    simp [Prod.ext_iff, eq_comm, and_comm]

theorem lookup_eq_some_iff (h : (es.map Prod.fst).Pairwise (· < ·)) :
    es.lookup n = some e ↔ (n, e) ∈ es := by
  induction es with
  | nil => simp
  | cons p es ih =>
    obtain ⟨m, e'⟩ := p
    obtain ⟨hlt, h⟩ := List.pairwise_cons.mp h
    rw [List.lookup_cons, List.mem_cons, Prod.mk.injEq]
    by_cases hm : n = m
    · subst hm
      have hnot : (n, e) ∉ es := fun hmem => by
        have hself := hlt n (List.mem_map_of_mem (f := Prod.fst) hmem)
        exact List.lt_irrefl n hself
      simp [hnot, eq_comm]
    · have hbeq : (n == m) = false := beq_eq_false_iff_ne.mpr hm
      simp only [hbeq, hm, false_and, false_or, ih h]

theorem mem_cgroups (he : e.Ok) :
    (ms, c) ∈ e.cgroups ↔ e.get ms = some (.dir c.uid c.readable c.entries) := by
  induction he generalizing ms with
  | file content => cases ms <;> simp [cgroups, get]
  | @dir uid readable es hsorted hnames hes ih =>
    obtain ⟨uid', readable', es'⟩ := c
    rw [cgroups, List.mem_cons, mem_cgroupsOf]
    cases ms with
    | nil => simp [get, eq_comm]
    | cons n ms =>
      rw [get, Option.bind_eq_some_iff]
      constructor
      · rintro (h | ⟨⟨n', e⟩, hp, rs, hcons, hmem⟩)
        · simp at h
        · cases hcons
          exact ⟨e, (lookup_eq_some_iff hsorted).mpr hp, (ih _ hp).mp hmem⟩
      · rintro ⟨e, hlookup, hget⟩
        have hp := (lookup_eq_some_iff hsorted).mp hlookup
        exact .inr ⟨(n, e), hp, ms, rfl, (ih _ hp).mpr hget⟩

theorem isName_of_mem_cgroups (he : e.Ok) (hc : (ms, c) ∈ e.cgroups) : ∀ n ∈ ms, IsName n := by
  induction he generalizing ms with
  | file content => cases hc
  | @dir uid readable es hsorted hnames hes ih =>
    rw [cgroups, List.mem_cons, mem_cgroupsOf] at hc
    rcases hc with hc | ⟨p, hp, rs, rfl, hmem⟩
    · cases hc
      exact List.forall_mem_nil _
    · exact List.forall_mem_cons.mpr ⟨hnames p hp, ih p hp hmem⟩

/-- The directories come in the order of their paths. -/
theorem pairwise_cgroups (he : e.Ok) : (e.cgroups.map Prod.fst).Pairwise (· < ·) := by
  induction he with
  | file content => exact List.Pairwise.nil
  | @dir uid readable es hsorted hnames hes ih =>
    rw [cgroups, List.map_cons, List.pairwise_cons]
    constructor
    · intro ms hms
      obtain ⟨⟨ms, c⟩, hmem, rfl⟩ := List.mem_map.mp hms
      obtain ⟨p, -, rs, rfl, -⟩ := mem_cgroupsOf.mp hmem
      exact List.nil_lt_cons _ _
    · clear hnames hes
      induction es with
      | nil => exact List.Pairwise.nil
      | cons p es ihes =>
        obtain ⟨name, e⟩ := p
        obtain ⟨hlt, hsorted⟩ := List.pairwise_cons.mp hsorted
        obtain ⟨he, hes⟩ := List.forall_mem_cons.mp ih
        rw [cgroupsOf, List.map_append, List.pairwise_append]
        refine ⟨?_, ihes hsorted hes, ?_⟩
        · rw [List.map_map]
          have hcons : (Prod.fst ∘ fun c : List Str × Cgroup => (name :: c.1, c.2)) =
              (name :: ·) ∘ Prod.fst := rfl
          rw [hcons, ← List.map_map, List.pairwise_map]
          exact he.imp fun h => List.cons_lt_cons_self.mpr h
        · intro ms hms ks hks
          rw [List.map_map] at hms
          obtain ⟨c, -, rfl⟩ := List.mem_map.mp hms
          obtain ⟨⟨ks, d⟩, hmem, rfl⟩ := List.mem_map.mp hks
          obtain ⟨q, hq, rs, rfl, -⟩ := mem_cgroupsOf.mp hmem
          exact List.Lex.rel (hlt q.1 (List.mem_map_of_mem hq))

end Entry

/-! ### Levels -/

theorem lost_eq (f : Str) : lost f = if comps f = [] then 1 else 0 := by
  have hiff : clean f = dot ∨ clean f = [slash] ↔ comps f = [] := by
    constructor
    · intro h
      rw [comps, ← stackOf_clean, List.reverse_eq_nil_iff]
      rcases h with h | h <;> rw [h] <;> decide
    · intro h
      rw [clean, h]
      cases isAbs f with
      | true => exact .inr rfl
      | false => exact .inl rfl
  rw [lost]
  simp only [hiff]

theorem slash_notMem_comps (f : Str) (hns : ∀ n ∈ ns, IsName n) :
    ∀ c ∈ comps f ++ ns, slash ∉ c := by
  intro c hc
  rcases List.mem_append.mp hc with hc | hc
  · exact (normal_stackOf f).notMem c (List.mem_reverse.mp hc)
  · exact (hns c hc).slash

theorem slashCnt_pathOf (f : Str) (hns : ∀ n ∈ ns, IsName n) :
    slashCnt (pathOf f ns) = slashCnt (clean f) + (ns.length - lost f) := by
  have hroot := length_splitOn_ofComps (isAbs f) (slash_notMem_comps f (List.forall_mem_nil _))
  rw [List.append_nil] at hroot
  have hpath := length_splitOn_ofComps (isAbs f) (slash_notMem_comps f hns)
  rw [slashCnt, slashCnt, pathOf, foldl_join_clean f hns, hpath, clean, hroot, lost_eq,
    List.length_append]
  cases comps f with
  | nil =>
    rw [if_pos rfl, List.length_nil]
    omega
  | cons c cs =>
    rw [if_neg (List.cons_ne_nil c cs), List.length_cons]
    omega

/-- The name under which a cgroup is shown: its last name, or its path on the topmost level. -/
def shownName (f : Str) (ns : List Str) : Str :=
  if h : lost f < ns.length then ns.getLast (List.ne_nil_of_length_pos (Nat.zero_lt_of_lt h))
  else pathOf f ns

theorem displayCgroup_eq (hns : ∀ n ∈ ns, IsName n) :
    displayCgroup opts host (slashCnt (clean f)) (pathOf f ns) c.uid c.entries =
      displayAt opts host (ns.length - lost f) (shownName f ns) (pathOf f ns) c.uid c.entries := by
  have hlevel : (slashCnt (pathOf f ns) : Int) - slashCnt (clean f) =
      (ns.length - lost f : Nat) := by
    rw [slashCnt_pathOf f hns]
    omega
  simp only [displayCgroup, hlevel, Int.toNat_natCast, shownName]
  congr 1
  by_cases h : lost f < ns.length
  · rw [dif_pos h, if_pos (by omega)]
    obtain ⟨ms, n, rfl⟩ := (List.eq_nil_or_concat ns).resolve_left
      (List.ne_nil_of_length_pos (Nat.zero_lt_of_lt h))
    simp only [List.concat_eq_append] at hns ⊢
    rw [pathOf, foldl_join_clean f hns, ← List.append_assoc, base_ofComps_concat (hns n (by simp)),
      List.getLast_append_singleton]
  · rw [dif_neg h, if_neg (by omega)]

/-- The beginning of the first line for a cgroup: four blanks for each level, and the name in the
colour of its type. -/
def cgroupLine (level : Nat) (name cgroupType : Str) : Str :=
  List.replicate (4 * level) 32 ++ cgroupColor cgroupType ++ name ++ NORMAL ++ ascii " " ++
    cgroupAbbrev cgroupType

/-- What the file `cgroup.type` says; the root cgroup has none. -/
def typeOf (path : Str) (es : List (Str × Entry)) : Str :=
  match readFile path es (ascii "cgroup.type") with
  | .error _ => ascii "root"
  | .ok ct => trimSpace ct

/-- The rest of that line, and the lines for the owner and the members, four blanks further in. -/
def cgroupDetails (opts : CmdLineOptions) (host : Host) (level : Nat) (path : Str) (uid : Nat)
    (es : List (Str × Entry)) : Out :=
  let indent := List.replicate (4 * level + 4) 32
  .all [displayControllers opts path es, .print [10],
    if opts.showOwner then
      .all [.print indent, displayCgroupOwnership opts uid, .print [10]]
    else .print [],
    displayMembers opts host path es (typeOf path es) indent]

theorem displayAt_eq (opts : CmdLineOptions) (host : Host) (level : Nat) (p path : Str) (uid : Nat)
    (es : List (Str × Entry)) :
    displayAt opts host level p path uid es =
      (Out.print (cgroupLine level p (typeOf path es))).seq
        (cgroupDetails opts host level path uid es) := by
  have hblanks : ascii "    " = List.replicate 4 32 := rfl
  have hindent : List.replicate (4 * level) 32 ++ ascii "    " =
      List.replicate (4 * level + 4) 32 := by rw [hblanks, List.replicate_append_replicate]
  rw [displayAt, Out.all_cons, cgroupDetails, ← hindent]
  rfl

/-- What is to be displayed for an argument: an error, or its cgroups, each beginning with its line
at its depth below the argument but for the level that may be lost. -/
def shownAt (opts : CmdLineOptions) (host : Host) (lstat : Str → Option Entry) (f : Str) :
    List Out :=
  match lstat (clean f) with
  | none => [.fail (.lstat (clean f))]
  | some e => e.cgroups.map fun c =>
    let level := c.1.length - lost f
    let path := pathOf f c.1
    if c.2.readable then
      (Out.print (cgroupLine level (shownName f c.1) (typeOf path c.2.entries))).seq
        (cgroupDetails opts host level path c.2.uid c.2.entries)
    else .fail (.readDirNames path)

/-- Every cgroup below the arguments is displayed once, in the order of the paths below each
argument, up to the first error. It is indented by its depth and has its own name, except that for
`.` and `/` as an argument one level is missing, and the cgroups at depth 1 look like further
arguments. -/
theorem cgroups_displayed (opts : CmdLineOptions) (host : Host) (lstat : Str → Option Entry)
    (args : List Str) (hok : ∀ p e, lstat p = some e → e.Ok) :
    main opts host lstat args = .all (args.flatMap (shownAt opts host lstat)) ∧
      ∀ p e, lstat p = some e → (e.cgroups.map Prod.fst).Pairwise (· < ·) ∧
        ∀ ns c, (ns, c) ∈ e.cgroups ↔ e.get ns = some (.dir c.uid c.readable c.entries) := by
  constructor
  · rw [Out.all_flatMap, main]
    congr 1
    refine List.map_congr_left fun f _ => ?_
    rw [walkArg, shownAt]
    cases h : lstat (clean f) with
    | none => rw [Out.all_cons, Out.all_nil, Out.seq_nil]
    | some e =>
      have he := hok _ e h
      have hwalk := walk_eq opts host f (slashCnt (clean f)) he []
      rw [pathOf, List.foldl_nil] at hwalk
      simp only [hwalk, List.nil_append]
      congr 1
      refine List.map_congr_left fun c hc => ?_
      rw [walkFn, displayCgroup_eq (Entry.isName_of_mem_cgroups he hc), displayAt_eq]
  · intro p e h
    have he := hok p e h
    exact ⟨Entry.pairwise_cgroups he, fun ns c => Entry.mem_cgroups he⟩

/-- A cgroup with one child. -/
def exampleEntry : Entry :=
  .dir 0 true [(ascii "a", .dir 1000 true [(ascii "cgroup.subtree_control", .file (some [])),
      (ascii "cgroup.type", .file (some (ascii "domain\n")))]),
    (ascii "cgroup.subtree_control", .file (some (ascii "cpu pids\n")))]

theorem exampleEntry_ok : exampleEntry.Ok := by
  have hname : ∀ n ∈ [ascii "a", ascii "cgroup.subtree_control", ascii "cgroup.type"],
      IsName n := by
    intro n hn
    simp only [List.mem_cons, List.not_mem_nil, or_false] at hn
    rcases hn with rfl | rfl | rfl <;> exact ⟨by decide, by decide, by decide, by decide⟩
  refine .dir (by decide) (fun p hp => ?_) fun p hp => ?_
  · simp only [List.mem_cons, List.not_mem_nil, or_false] at hp
    rcases hp with rfl | rfl <;> exact hname _ (by simp)
  · simp only [List.mem_cons, List.not_mem_nil, or_false] at hp
    rcases hp with rfl | rfl
    · refine .dir (by decide) (fun p hp => ?_) fun p hp => ?_
      · simp only [List.mem_cons, List.not_mem_nil, or_false] at hp
        rcases hp with rfl | rfl <;> exact hname _ (by simp)
      · simp only [List.mem_cons, List.not_mem_nil, or_false] at hp
        rcases hp with rfl | rfl <;> exact .file _
    · exact .file _

/-- Below `.`, the child stands on the topmost level; below `/cg` it is indented. -/
theorem cgroups_displayed_dot :
    let opts : CmdLineOptions := ⟨false, false, false, false⟩
    let host : Host := ⟨80, fun _ => none, fun _ => none⟩
    let lstat : Str → Option Entry := fun _ => some exampleEntry
    let args := [ascii ".", ascii "/cg//"]
    main opts host lstat args = .all (args.flatMap (shownAt opts host lstat)) ∧
      (args.flatMap (shownAt opts host lstat)).map (·.text.takeWhile (· ≠ 0x1b)) =
        [ascii ".", ascii "a", ascii "/cg", ascii "    a"] := by
  refine ⟨(cgroups_displayed _ _ _ _ fun p e h => ?_).1, by decide⟩
  cases h
  exact exampleEntry_ok

end Tlpi.ViewV2Cgroups
