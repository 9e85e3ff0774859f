import Mathlib.Data.List.Basic
import Tlpi.Lib.Environ

/-!
# `execlp` (`ch24-procexec/execlp.c`)

The argument vector is built in an array that grows with `realloc`, and is copied for the shell
when a file is not in a known format. Each access to one of the two arrays is recorded with the
size of the array at that time. An array has a cell for every index, also outside its size, with
arbitrary contents before it is written. Behind the array on the heap these cells belong to the
allocator, which may abort when it finds them overwritten; behind the one on the stack they are
memory that nothing else uses.
-/

namespace Tlpi.Execlp

open Env

abbrev Errno := Nat

def ENOEXEC : Errno := 8
def EACCES : Errno := 13

def SHELL_PATH : CString := "/bin/sh".toList

/-- An array of pointers. -/
structure Block where
  size : Nat
  cell : Nat → Option CString

namespace Block

def set (b : Block) (i : Nat) (p : Option CString) : Block :=
  { b with cell := fun j => if j = i then p else b.cell j }

theorem set_cell_of_ne {b : Block} {i j : Nat} {p : Option CString} (h : j ≠ i) :
    (b.set i p).cell j = b.cell j := if_neg h

theorem set_cell_self {b : Block} {i : Nat} {p : Option CString} : (b.set i p).cell i = p :=
  if_pos rfl

/-- The strings up to the null pointer, in at most `n` cells from the cell `i` on. -/
def strings (b : Block) : Nat → Nat → List CString
  | _, 0 => []
  | i, n + 1 =>
    match b.cell i with
    | none => []
    | some s => s :: b.strings (i + 1) n

end Block

inductive ArrayName where
  | argv | shArgv
  deriving DecidableEq, Repr

/-- A read or a write of an array that has `size` cells. -/
structure Access where
  array : ArrayName
  idx : Nat
  size : Nat
  deriving DecidableEq, Repr

def Access.InBounds (a : Access) : Prop := a.idx < a.size

instance (a : Access) : Decidable a.InBounds := inferInstanceAs (Decidable (_ < _))

/-- What memory holds before the program writes there: on the heap when the block is allocated
that holds `argc` items, and on the stack; and whether the allocator aborts the program when a
write behind a block has damaged its data. -/
structure Garbage where
  heap : Nat → Nat → Option CString
  stack : Nat → Option CString
  abort : Bool

def calloc (mem : Garbage) (n : Nat) : Block :=
  ⟨n, fun i => if i < n then none else mem.heap 0 i⟩

def realloc (mem : Garbage) (argc : Nat) (b : Block) (n : Nat) : Block :=
  ⟨n, fun i => if i < min b.size n then b.cell i else mem.heap argc i⟩

/-- The variables of the loop that builds `argv`. -/
structure Build where
  argv : Block
  argc : Nat
  argvSize : Nat
  log : List Access

namespace Build

/-- `argv = calloc(argvSize, sizeof(void *)); argv[0] = arg; argc = 1` -/
def start (mem : Garbage) (arg : Option CString) : Build where
  argv := (calloc mem 100).set 0 arg
  argc := 1
  argvSize := 100
  log := [⟨.argv, 0, 100⟩]

/-- Resize `argv` if required. -/
def resize (mem : Garbage) (b : Build) : Build :=
  if b.argc + 1 ≥ b.argvSize then
    -- the new size is that of one pointer, `sizeof(void *)`
    { b with argvSize := b.argvSize + 100, argv := realloc mem b.argc b.argv 1 }
  else b

/-- `argv[argc] = va_arg(argList, char *); argc++` -/
def store (b : Build) (p : Option CString) : Build :=
  { b with argv := b.argv.set b.argc p, argc := b.argc + 1,
           log := b.log ++ [⟨.argv, b.argc, b.argv.size⟩] }

/-- Read `argv[argc - 1]`. -/
def readLast (b : Build) : Build :=
  { b with log := b.log ++ [⟨.argv, b.argc - 1, b.argv.size⟩] }

/-- The loop `while (argv[argc - 1] != NULL)`, with the arguments that are still in the list. -/
def collect (mem : Garbage) : List (Option CString) → Build → Build
  | [], b => b.readLast
  | p :: va, b =>
    match b.argv.cell (b.argc - 1) with
    | none => b.readLast
    | some _ => collect mem va ((b.readLast.resize mem).store p)

/-- An element behind the array has been accessed. The first such access is a write. -/
def Damaged (b : Build) : Prop := ∃ a ∈ b.log, ¬a.InBounds

instance (b : Build) : Decidable b.Damaged := inferInstanceAs (Decidable (∃ a ∈ b.log, _))

end Build

/-- The argument vector for `arg` and the list of the arguments after it. -/
def buildArgv (mem : Garbage) (arg : Option CString) (va : List (Option CString)) : Build :=
  Build.collect mem va (.start mem arg)

/-- The array `shArgv` of `execShScript`. -/
def shArgv (mem : Garbage) (b : Build) : Block :=
  (List.range (b.argc + 1)).foldl (fun sh j => sh.set (j + 1) (b.argv.cell j))
    (Block.set ⟨b.argc + 1, mem.stack⟩ 0 (some SHELL_PATH))

/-- The accesses of `execShScript`. -/
def shLog (b : Build) : List Access :=
  ⟨.shArgv, 0, b.argc + 1⟩ :: (List.range (b.argc + 1)).flatMap fun j =>
    [⟨.argv, j, b.argv.size⟩, ⟨.shArgv, j + 1, b.argc + 1⟩]

/-- A call of `execve`, on the file itself or on the shell. -/
inductive Call where
  | file (pathname : CString) (argv envp : List CString)
  | shell (argv envp : List CString)
  deriving DecidableEq, Repr

/-- How `execve` fails on a file, and on the shell if that is executed for the file; `none` stands
for success. -/
structure Attempt where
  err : Option Errno
  sh : Option Errno
  deriving DecidableEq, Repr

/-- The calls of `execve` that are made, the error number of `execlp` if none of them succeeds, and
the accesses to the arrays. -/
structure Result where
  calls : List Call
  err : Option Errno
  log : List Access

/-- Execute a file, and the shell on the error `ENOEXEC`; the error number is that of the file. -/
def tryFile (mem : Garbage) (b : Build) (envp : List CString) (pathname : CString) (o : Attempt) :
    Result :=
  let call := .file pathname (b.argv.strings 0 b.argc) envp
  match o.err with
  | none => ⟨[call], none, []⟩
  | some e =>
    if e = ENOEXEC then
      ⟨[call, .shell ((shArgv mem b).strings 0 (b.argc + 2)) envp], o.sh.map fun _ => e, shLog b⟩
    else ⟨[call], some e, []⟩

/-- `pathname`: the prefix, or "." if it is empty, and the file name. -/
def joinPath (pfx filename : CString) : CString :=
  (if pfx = [] then ['.'] else pfx) ++ '/' :: filename

/-- The loop `while (morePrefixes)`, from `prStart` on; `i` files have been tried. -/
def searchPath (mem : Garbage) (b : Build) (envp : List CString) (filename : CString)
    (outcome : Nat → Attempt) (prStart : CString) (i : Nat) (fndEACCES : Bool) : Result :=
  let prEnd := prStart.dropWhile (· ≠ ':')
  let r := tryFile mem b envp (joinPath (prStart.takeWhile (· ≠ ':')) filename) (outcome i)
  match r.err with
  | none => r
  | some savedErrno =>
    let fndEACCES := fndEACCES || savedErrno = EACCES
    if _h : prEnd = [] then { r with err := some (if fndEACCES then EACCES else savedErrno) }
    else
      let rest := searchPath mem b envp filename outcome prEnd.tail (i + 1) fndEACCES
      ⟨r.calls ++ rest.calls, rest.err, r.log ++ rest.log⟩
termination_by prStart.length
decreasing_by
  have h' : 0 < (prStart.dropWhile (· ≠ ':')).length := List.length_pos_iff.mpr _h
  have := (List.dropWhile_suffix (l := prStart) (· ≠ ':')).length_le
  simp only [List.length_tail]
  omega

/-- An undefined or empty `PATH` is treated as ".". -/
def pathOf (environ : List CString) : CString :=
  match getenv "PATH".toList environ with
  | none => ['.']
  | some p => if p.length = 0 then ['.'] else p

/-- `execlp(filename, arg, ...)` -/
def execlp (mem : Garbage) (environ : List CString) (filename : CString) (arg : Option CString)
    (va : List (Option CString)) (outcome : Nat → Attempt) : Result :=
  let b := buildArgv mem arg va
  -- `envp = calloc(sizeof(void *), j + 1)`
  if mem.abort ∧ b.Damaged then ⟨[], none, b.log⟩
  else
    -- the strings of `envp` are copies of those of `environ`
    let envp := environ
    let r :=
      if '/' ∈ filename then tryFile mem b envp filename (outcome 0)
      else searchPath mem b envp filename outcome (pathOf environ) 0 false
    { r with log := b.log ++ r.log }

/-! ### The search that SUSv3 describes -/

/-- The attempt does not execute a program, neither the file nor the shell. -/
def Failed (a : CString × Attempt) : Bool :=
  a.2.err ≠ none ∧ ¬(a.2.err = some ENOEXEC ∧ a.2.sh = none)

/-- The components of `PATH`, of which there is one if it is not set or is empty. -/
def components (environ : List CString) : List CString :=
  match getenv "PATH".toList environ with
  | none | some [] => [['.']]
  | some p => p.splitOn ':'

/-- The pathnames to try: a file name with a slash alone, else one for each component of `PATH`;
an empty component stands for ".". -/
def candidates (environ : List CString) (filename : CString) : List CString :=
  if '/' ∈ filename then [filename]
  else (components environ).map fun c => (if c = [] then ['.'] else c) ++ '/' :: filename

/-- The candidates with what happens when they are tried in order. -/
def attemptsFrom (i : Nat) (outcome : Nat → Attempt) (cands : List CString) :
    List (CString × Attempt) :=
  (cands.zipIdx i).map fun c => (c.1, outcome c.2)

/-- The attempts up to the first one that executes a program. -/
def tried (l : List (CString × Attempt)) : List (CString × Attempt) :=
  l.takeWhile Failed ++ (l.dropWhile Failed).take 1

/-- The error when all attempts fail: `EACCES` if one of them gave that, else that of the last. -/
def finalErrno (fndEACCES : Bool) (l : List (CString × Attempt)) : Option Errno :=
  if l.all Failed then
    if fndEACCES || l.any (·.2.err = some EACCES) then some EACCES
    else l.getLast?.bind (·.2.err)
  else none

theorem tried_cons (a : CString × Attempt) (l : List (CString × Attempt)) :
    tried (a :: l) = if Failed a then a :: tried l else [a] := by
  by_cases h : Failed a <;> simp [tried, h]

theorem tried_singleton (a : CString × Attempt) : tried [a] = [a] := by
  rw [tried_cons, tried]
  simp

theorem finalErrno_of_not_failed (fnd : Bool) {a : CString × Attempt}
    (l : List (CString × Attempt)) (h : ¬Failed a) : finalErrno fnd (a :: l) = none := by
  simp [finalErrno, h]

theorem finalErrno_singleton (fnd : Bool) {a : CString × Attempt} (h : Failed a) :
    finalErrno fnd [a] =
      if fnd || a.2.err = some EACCES then some EACCES else a.2.err := by
  simp [finalErrno, h]

theorem finalErrno_cons (fnd : Bool) {a : CString × Attempt} {l : List (CString × Attempt)}
    (h : Failed a) (hl : l ≠ []) :
    finalErrno fnd (a :: l) = finalErrno (fnd || a.2.err = some EACCES) l := by
  obtain ⟨b, l, rfl⟩ := List.exists_cons_of_ne_nil hl
  simp only [finalErrno, List.all_cons, List.any_cons, List.getLast?_cons_cons, h, Bool.true_and,
    Bool.or_assoc]

theorem tryFile_err_eq_some {mem : Garbage} {b : Build} {envp : List CString}
    {a : CString × Attempt} {e : Errno} :
    (tryFile mem b envp a.1 a.2).err = some e ↔ Failed a ∧ a.2.err = some e := by
  obtain ⟨pathname, err, sh⟩ := a
  cases err with
  | none => simp [tryFile]
  | some e' =>
    by_cases he : e' = ENOEXEC
    · cases sh <;> simp [tryFile, Failed, he]
    · simp [tryFile, Failed, he]

theorem tryFile_err_eq_none {mem : Garbage} {b : Build} {envp : List CString}
    {a : CString × Attempt} :
    (tryFile mem b envp a.1 a.2).err = none ↔ ¬Failed a := by
  rw [← not_iff_not, not_not, ← ne_eq, Option.ne_none_iff_exists']
  simp only [tryFile_err_eq_some]
  refine ⟨fun ⟨_, h, _⟩ => h, fun h => ?_⟩
  have herr : a.2.err ≠ none := (of_decide_eq_true h).1
  obtain ⟨e, he⟩ := Option.ne_none_iff_exists'.mp herr
  exact ⟨e, h, he⟩

theorem tryFile_err_eq_finalErrno (mem : Garbage) (b : Build) (envp : List CString)
    (a : CString × Attempt) : (tryFile mem b envp a.1 a.2).err = finalErrno false [a] := by
  by_cases hf : Failed a
  · cases herr : (tryFile mem b envp a.1 a.2).err with
    | none => exact absurd hf (tryFile_err_eq_none.mp herr)
    | some e =>
      rw [finalErrno_singleton false hf, (tryFile_err_eq_some.mp herr).2]
      by_cases he : e = EACCES <;> simp [he]
  · rw [finalErrno_of_not_failed false [] hf, tryFile_err_eq_none.mpr hf]

/-- The first prefix of a path, and the others. -/
theorem splitOn_colon (p : CString) :
    p.splitOn ':' = p.takeWhile (· ≠ ':') ::
      if p.dropWhile (· ≠ ':') = [] then [] else (p.dropWhile (· ≠ ':')).tail.splitOn ':' := by
  induction p with
  | nil => simp
  | cons c p ih =>
    rw [List.splitOn_cons_eq_if_modifyHead]
    by_cases hc : c = ':'
    · simp [hc]
    · simp [hc, ih]

theorem attemptsFrom_nil (i : Nat) (outcome : Nat → Attempt) : attemptsFrom i outcome [] = [] := rfl

theorem attemptsFrom_cons (i : Nat) (outcome : Nat → Attempt) (c : CString) (cs : List CString) :
    attemptsFrom i outcome (c :: cs) = (c, outcome i) :: attemptsFrom (i + 1) outcome cs := rfl

theorem Result.eq_of_err_eq_none {r : Result} (h : r.err = none) :
    r = ⟨r.calls, none, r.log⟩ := by
  rw [← h]

/-- What `searchPath` does is what each of the files tried adds to it. -/
theorem searchPath_eq (mem : Garbage) (b : Build) (envp : List CString) (filename : CString)
    (outcome : Nat → Attempt) (prStart : CString) (i : Nat) (fnd : Bool) :
    let l := attemptsFrom i outcome ((prStart.splitOn ':').map (joinPath · filename))
    searchPath mem b envp filename outcome prStart i fnd =
      ⟨(tried l).flatMap fun a => (tryFile mem b envp a.1 a.2).calls, finalErrno fnd l,
        (tried l).flatMap fun a => (tryFile mem b envp a.1 a.2).log⟩ := by
  simp only
  induction prStart, i, fnd using searchPath.induct mem b envp filename outcome with
  | case1 prStart i fnd r hr =>
    have hf : ¬Failed (joinPath (prStart.takeWhile (· ≠ ':')) filename, outcome i) :=
      tryFile_err_eq_none.mp hr
    rw [searchPath, splitOn_colon, List.map_cons, attemptsFrom_cons, tried_cons, if_neg hf,
      finalErrno_of_not_failed _ _ hf]
    simp only [r] at hr
    simp only [hr, List.flatMap_singleton]
    exact Result.eq_of_err_eq_none hr
  | case2 prStart i fnd prEnd r e hr hend =>
    obtain ⟨hf, he⟩ : Failed (joinPath (prStart.takeWhile (· ≠ ':')) filename, outcome i) ∧ _ :=
      tryFile_err_eq_some.mp hr
    simp only [r, prEnd] at hr hend
    rw [searchPath, splitOn_colon, if_pos hend, List.map_singleton, attemptsFrom_cons, tried_cons,
      if_pos hf, attemptsFrom_nil, finalErrno_singleton _ hf, he]
    simp only [hr, dif_pos hend]
    simp [tried, apply_ite some]
  | case3 prStart i fnd prEnd r e hr fnd' hend ih =>
    obtain ⟨hf, he⟩ : Failed (joinPath (prStart.takeWhile (· ≠ ':')) filename, outcome i) ∧ _ :=
      tryFile_err_eq_some.mp hr
    simp only [r, prEnd, fnd'] at hr hend ih
    have hne : attemptsFrom (i + 1) outcome
        (((prStart.dropWhile (· ≠ ':')).tail.splitOn ':').map (joinPath · filename)) ≠ [] := by
      simp [attemptsFrom]
    rw [searchPath, splitOn_colon, if_neg hend, List.map_cons, attemptsFrom_cons, tried_cons,
      if_pos hf, finalErrno_cons _ hf hne, he]
    simp only [hr, dif_neg hend, ih, List.flatMap_cons, Option.some.injEq]

theorem components_eq (environ : List CString) :
    components environ = (pathOf environ).splitOn ':' := by
  unfold components pathOf
  cases getenv "PATH".toList environ with
  | none => rfl
  | some p => cases p <;> rfl

/-- What `execlp` does is what building the vector and each of the files tried adds to it, if the
allocator does not abort. -/
theorem execlp_eq {mem : Garbage} (environ : List CString) (filename : CString)
    {arg : Option CString} {va : List (Option CString)} (outcome : Nat → Attempt)
    (hmem : ¬(mem.abort ∧ (buildArgv mem arg va).Damaged)) :
    let b := buildArgv mem arg va
    let l := attemptsFrom 0 outcome (candidates environ filename)
    execlp mem environ filename arg va outcome =
      ⟨(tried l).flatMap fun a => (tryFile mem b environ a.1 a.2).calls, finalErrno false l,
        b.log ++ (tried l).flatMap fun a => (tryFile mem b environ a.1 a.2).log⟩ := by
  simp only [execlp, candidates, if_neg hmem]
  by_cases hslash : '/' ∈ filename
  · simp only [if_pos hslash, attemptsFrom_cons, attemptsFrom_nil, tried_singleton, List.flatMap_singleton,
      ← tryFile_err_eq_finalErrno mem (buildArgv mem arg va) environ]
  · simp only [if_neg hslash, components_eq, searchPath_eq]
    rfl

end Tlpi.Execlp
