import Tlpi.Procexec.Execlp

/-!
# The argument vectors of `execlp`

The array `argv` has room for 100 pointers. When it is to grow, `realloc` is given the size of one
pointer, which loses the arguments after the first, and the next ones are written behind it; this
happens with 99 arguments or more. The
array for the shell is one element too short for what `execShScript` copies, and what it copies
begins with the first argument where the shell expects the pathname.
-/

namespace Tlpi.Execlp

open Env

namespace Build

variable {mem : Garbage} {b : Build} {xs : List CString}

/-- The arguments `xs` have been stored, and there has been room for them. -/
structure Stored (xs : List CString) (b : Build) : Prop where
  argc : b.argc = xs.length
  size : b.argv.size = 100
  argvSize : b.argvSize = 100
  cell : ∀ i < xs.length, b.argv.cell i = xs[i]?
  log : ∀ a ∈ b.log, a.InBounds

/-- The arguments `xs` and the null pointer have been stored, and there has been room for them. -/
structure Built (xs : List CString) (b : Build) : Prop where
  argc : b.argc = xs.length + 1
  size : b.argv.size = 100
  cell : ∀ i ≤ xs.length, b.argv.cell i = xs[i]?
  log : ∀ a ∈ b.log, a.InBounds

theorem start_stored (mem : Garbage) (x : CString) : Stored [x] (start mem (some x)) where
  argc := rfl
  size := rfl
  argvSize := rfl
  cell i hi := by
    obtain rfl : i = 0 := by simpa using hi
    rfl
  log := by simp [start, Access.InBounds]

theorem start_built (mem : Garbage) : Built [] (start mem none).readLast where
  argc := rfl
  size := rfl
  cell i hi := by
    obtain rfl : i = 0 := by simpa using hi
    rfl
  log := by simp [readLast, start, Access.InBounds, calloc, Block.set]

/-- Below the size of the array nothing is reallocated. -/
theorem Stored.resize_eq (h : Stored xs b) (hlt : xs.length < 99) :
    b.readLast.resize mem = b.readLast := by
  rw [resize, if_neg]
  rw [readLast, h.argc, h.argvSize]
  omega

theorem Stored.log_store (h : Stored xs b) (hlt : xs.length < 99) (p : Option CString) :
    ∀ a ∈ (b.readLast.store p).log, a.InBounds := by
  intro a ha
  simp only [store, readLast, h.size, h.argc, List.append_assoc, List.mem_append,
    List.mem_cons, List.not_mem_nil, or_false, List.singleton_append] at ha
  rcases ha with ha | rfl | rfl
  · exact h.log a ha
  · exact show xs.length - 1 < 100 by omega
  · exact show xs.length < 100 by omega

theorem Stored.cell_store (h : Stored xs b) (p : Option CString) (i : Nat) :
    i ≤ xs.length → (b.readLast.store p).argv.cell i = if i = xs.length then p else xs[i]? := by
  intro hi
  simp only [store, readLast, Block.set, h.argc]
  split
  · rfl
  · exact h.cell i (by omega)

theorem Stored.store_some (h : Stored xs b) (hlt : xs.length < 99) (x : CString) :
    Stored (xs ++ [x]) (b.readLast.store (some x)) where
  argc := by simp [store, readLast, h.argc]
  size := h.size
  argvSize := h.argvSize
  cell i hi := by
    rw [List.length_append, List.length_singleton] at hi
    rw [h.cell_store _ i (by omega)]
    by_cases hx : i = xs.length
    · simp [hx]
    · rw [if_neg hx, List.getElem?_append_left (by omega)]
  log := h.log_store hlt _

theorem Stored.store_none (h : Stored xs b) (hlt : xs.length < 99) :
    Built xs (b.readLast.store none).readLast where
  argc := by simp [store, readLast, h.argc]
  size := h.size
  cell i hi := by
    rw [readLast, h.cell_store _ i hi]
    by_cases hx : i = xs.length
    · simp [hx]
    · rw [if_neg hx]
  log := by
    intro a ha
    rw [readLast, List.mem_append, List.mem_singleton] at ha
    rcases ha with ha | rfl
    · exact h.log_store hlt _ a ha
    · simp only [store, readLast, h.argc, Access.InBounds, Block.set, h.size]
      omega

theorem Stored.exists_last (h : Stored xs b) (hx : xs ≠ []) :
    ∃ x, b.argv.cell (b.argc - 1) = some x := by
  have hpos := List.length_pos_iff.mpr hx
  rw [h.argc, h.cell _ (by omega)]
  exact ⟨_, List.getElem?_eq_getElem (by omega)⟩

/-- Fewer than 99 arguments are all stored. -/
theorem Stored.collect (h : Stored xs b) (hx : xs ≠ []) (rest : List CString)
    (hlt : xs.length + rest.length < 99) :
    Built (xs ++ rest) (collect mem (rest.map some ++ [none]) b) := by
  induction rest generalizing xs b with
  | nil =>
    obtain ⟨x, hlast⟩ := h.exists_last hx
    rw [List.length_nil, Nat.add_zero] at hlt
    simp only [List.map_nil, List.nil_append, List.append_nil, Build.collect, hlast,
      h.resize_eq hlt]
    exact h.store_none hlt
  | cons x rest ih =>
    obtain ⟨y, hlast⟩ := h.exists_last hx
    rw [List.length_cons] at hlt
    simp only [List.map_cons, List.cons_append, Build.collect, hlast, h.resize_eq (by omega)]
    rw [← List.singleton_append, ← List.append_assoc]
    refine ih (h.store_some (by omega) x) (by simp) ?_
    simp only [List.length_append, List.length_singleton]
    omega

/-- The next store after a reallocation is behind the array. -/
theorem damaged_of_resize (hargc : 1 ≤ b.argc) (hfull : b.argc + 1 ≥ b.argvSize)
    (p : Option CString) : ((b.readLast.resize mem).store p).Damaged := by
  have hres : b.readLast.resize mem =
      ⟨realloc mem b.argc b.argv 1, b.argc, b.argvSize + 100, b.readLast.log⟩ := if_pos hfull
  rw [hres]
  exact ⟨⟨.argv, b.argc, 1⟩, by simp [store, realloc], Nat.not_lt.mpr hargc⟩

theorem Damaged.readLast (h : b.Damaged) : b.readLast.Damaged := by
  obtain ⟨a, ha, hout⟩ := h
  exact ⟨a, List.mem_append_left _ ha, hout⟩

theorem Damaged.step (h : b.Damaged) (p : Option CString) :
    ((b.readLast.resize mem).store p).Damaged := by
  have hlog : (b.readLast.resize mem).log = b.readLast.log := by
    rw [resize]
    split <;> rfl
  obtain ⟨a, ha, hout⟩ := h.readLast
  exact ⟨a, List.mem_append_left _ (hlog ▸ ha), hout⟩

theorem Damaged.collect (h : b.Damaged) (va : List (Option CString)) :
    (collect mem va b).Damaged := by
  induction va generalizing b with
  | nil => exact h.readLast
  | cons p va ih =>
    rw [Build.collect]
    split
    · exact h.readLast
    · exact ih (h.step p)

theorem Stored.damaged_store (h : Stored xs b) (hx : xs ≠ []) (hfull : 99 ≤ xs.length)
    (p : Option CString) : ((b.readLast.resize mem).store p).Damaged := by
  apply damaged_of_resize
  · rw [h.argc]
    exact List.length_pos_iff.mpr hx
  · rw [h.argc, h.argvSize]
    omega

/-- With 99 arguments or more the array is reallocated. -/
theorem Stored.collect_damaged (h : Stored xs b) (hx : xs ≠ []) (hle : xs.length ≤ 99)
    (rest : List CString) (hlen : 99 ≤ xs.length + rest.length) :
    (Build.collect mem (rest.map some ++ [none]) b).Damaged := by
  induction rest generalizing xs b with
  | nil =>
    obtain ⟨y, hlast⟩ := h.exists_last hx
    simp only [List.map_nil, List.nil_append, Build.collect, hlast]
    exact (h.damaged_store hx (by simpa using hlen) none).readLast
  | cons x rest ih =>
    obtain ⟨y, hlast⟩ := h.exists_last hx
    simp only [List.map_cons, List.cons_append, Build.collect, hlast]
    by_cases hfull : 99 ≤ xs.length
    · exact (h.damaged_store hx hfull (some x)).collect _
    · have hstored := h.store_some (by omega) x
      rw [h.resize_eq (by omega)]
      exact ih hstored (by simp) (by simp; omega) (by simp at hlen ⊢; omega)

/-- The vector holds the arguments and the null pointer, or has been written behind its end. -/
theorem buildArgv_cases (mem : Garbage) (args : List CString) :
    (args.length < 99 → Built args (buildArgv mem args.head? (args.tail.map some ++ [none]))) ∧
    (99 ≤ args.length → (buildArgv mem args.head? (args.tail.map some ++ [none])).Damaged) := by
  cases args with
  | nil => exact ⟨fun _ => start_built mem, nofun⟩
  | cons x args =>
    have hstart := start_stored mem x
    refine ⟨fun hlt => ?_, fun hle => ?_⟩
    · exact hstart.collect (by simp) args (by simp at hlt ⊢; omega)
    · exact hstart.collect_damaged (by simp) (by simp) args (by simp at hle ⊢; omega)

end Build

namespace Block

/-- An array that holds a list and then the null pointer. -/
theorem strings_eq {b : Block} {xs : List CString} {i n : Nat}
    (h : ∀ j ≤ xs.length, b.cell (i + j) = xs[j]?) (hn : xs.length < n) : b.strings i n = xs := by
  induction xs generalizing i n with
  | nil =>
    obtain ⟨n, rfl⟩ := Nat.exists_eq_add_of_lt hn
    have h0 := h 0 (Nat.le_refl 0)
    simp at h0
    simp [strings, h0]
  | cons x xs ih =>
    obtain ⟨n, rfl⟩ : ∃ m, n = m + 1 := ⟨n - 1, by omega⟩
    have h0 := h 0 (Nat.zero_le _)
    simp at h0
    simp only [strings, h0]
    rw [ih _ (by simpa using hn)]
    intro j hj
    have := h (j + 1) (by simpa using hj)
    rwa [← Nat.add_assoc, Nat.add_right_comm] at this

end Block

/-- The loop of `execShScript` after `n` rounds. -/
theorem foldl_set_cell (sh : Block) (f : Nat → Option CString) (n : Nat) :
    let sh' := (List.range n).foldl (fun sh j => sh.set (j + 1) (f j)) sh
    sh'.cell 0 = sh.cell 0 ∧ ∀ j < n, sh'.cell (j + 1) = f j := by
  induction n with
  | zero => exact ⟨rfl, nofun⟩
  | succ n ih =>
    simp only [List.range_succ, List.foldl_append, List.foldl_cons, List.foldl_nil]
    refine ⟨(Block.set_cell_of_ne (by omega)).trans ih.1, fun j hj => ?_⟩
    by_cases hjn : j = n
    · rw [hjn, Block.set_cell_self]
    · exact (Block.set_cell_of_ne (by omega)).trans (ih.2 j (by omega))

/-- The vector that the shell is executed with, from what `argv` holds. -/
theorem strings_shArgv {mem : Garbage} {b : Build} {xs : List CString}
    (h : ∀ j ≤ xs.length, b.argv.cell j = xs[j]?) (hargc : xs.length ≤ b.argc) :
    (shArgv mem b).strings 0 (b.argc + 2) = SHELL_PATH :: xs := by
  obtain ⟨hzero, hsucc⟩ := foldl_set_cell (Block.set ⟨b.argc + 1, mem.stack⟩ 0 (some SHELL_PATH))
    b.argv.cell (b.argc + 1)
  apply Block.strings_eq
  · intro j hj
    rw [Nat.zero_add]
    cases j with
    | zero => exact hzero
    | succ j =>
      have hj' : j ≤ xs.length := by simpa using hj
      exact (hsucc j (by omega)).trans (h j hj')
  · simp only [List.length_cons]
    omega

/-- What a call of `execve` says about the search: the pathname, or the vector of the shell. -/
inductive Act where
  | file (pathname : CString)
  | shell (argv : List CString)
  deriving DecidableEq, Repr

def Call.act : Call → Act
  | .file pathname _ _ => .file pathname
  | .shell argv _ => .shell argv

/-- The calls for one file, when the shell gets the vector `sh`. -/
def actsOf (sh : List CString) (a : CString × Attempt) : List Act :=
  .file a.1 :: if a.2.err = some ENOEXEC then [.shell sh] else []

/-- The search of SUSv3: each file is tried in turn, the shell is given the pathname of the file
and the arguments after the first, and the error is that of `finalErrno`. -/
structure AsSpecified (environ : List CString) (filename : CString) (args : List CString)
    (outcome : Nat → Attempt) (r : Result) : Prop where
  acts : r.calls.map Call.act =
    (tried (attemptsFrom 0 outcome (candidates environ filename))).flatMap fun a =>
      actsOf (SHELL_PATH :: a.1 :: args.tail) a
  err : r.err = finalErrno false (attemptsFrom 0 outcome (candidates environ filename))

theorem act_tryFile (mem : Garbage) (b : Build) (envp : List CString) (a : CString × Attempt) :
    (tryFile mem b envp a.1 a.2).calls.map Call.act =
      actsOf ((shArgv mem b).strings 0 (b.argc + 2)) a := by
  obtain ⟨pathname, err, sh⟩ := a
  cases err with
  | none => rfl
  | some e => by_cases he : e = ENOEXEC <;> simp [tryFile, actsOf, Call.act, he]

/-- Two lists made in the same way from the same elements are equal element by element. -/
theorem flatMap_actsOf_inj {l : List (CString × Attempt)} {f g : CString × Attempt → List CString} :
    (l.flatMap fun a => actsOf (f a) a) = (l.flatMap fun a => actsOf (g a) a) ↔
      ∀ a ∈ l, a.2.err = some ENOEXEC → f a = g a := by
  induction l with
  | nil => simp
  | cons a l ih =>
    rw [List.flatMap_cons, List.flatMap_cons, List.forall_mem_cons, ← ih]
    by_cases he : a.2.err = some ENOEXEC <;> simp [actsOf, he]

section
variable (mem : Garbage) (environ : List CString) (filename : CString) (args : List CString)
  (outcome : Nat → Attempt)

/-- The vector that is built for a call with the arguments `args`. -/
def argvOf : Build := buildArgv mem args.head? (args.tail.map some ++ [none])

/-- A call with the arguments `args`, and the null pointer after them. -/
def execlpArgs : Result :=
  execlp mem environ filename args.head? (args.tail.map some ++ [none]) outcome

/-- The files that such a call tries. -/
def triedBy : List (CString × Attempt) :=
  tried (attemptsFrom 0 outcome (candidates environ filename))

variable {mem environ filename args outcome}

theorem triedBy_ne_nil (environ : List CString) (filename : CString) (outcome : Nat → Attempt) :
    triedBy environ filename outcome ≠ [] := by
  have hcands : candidates environ filename ≠ [] := by
    rw [candidates, components_eq, splitOn_colon]
    split <;> simp
  obtain ⟨c, cs, hcs⟩ := List.exists_cons_of_ne_nil hcands
  rw [triedBy, hcs, attemptsFrom_cons, tried_cons]
  split <;> simp

/-- If the allocator does not abort, the search is that of SUSv3, apart from what the shell is
given. -/
theorem asSpecified_iff (hmem : ¬(mem.abort ∧ (argvOf mem args).Damaged)) :
    AsSpecified environ filename args outcome (execlpArgs mem environ filename args outcome) ↔
      ∀ a ∈ triedBy environ filename outcome, a.2.err = some ENOEXEC →
        (shArgv mem (argvOf mem args)).strings 0 ((argvOf mem args).argc + 2) =
          SHELL_PATH :: a.1 :: args.tail := by
  rw [triedBy, ← flatMap_actsOf_inj]
  have heq := execlp_eq environ filename outcome hmem
  constructor
  · intro h
    rw [← h.acts, execlpArgs, heq, List.map_flatMap]
    simp only [act_tryFile]
    rfl
  · intro h
    rw [execlpArgs, heq]
    refine ⟨?_, rfl⟩
    rw [← h, List.map_flatMap]
    simp only [act_tryFile]
    rfl

/-- An allocator that aborts leaves everything undone. -/
theorem not_asSpecified_of_abort (habort : mem.abort) (hdamaged : (argvOf mem args).Damaged) :
    ¬AsSpecified environ filename args outcome
      (execlpArgs mem environ filename args outcome) := by
  intro h
  have hacts := h.acts
  rw [execlpArgs, execlp, if_pos ⟨habort, hdamaged⟩, List.map_nil] at hacts
  obtain ⟨a, l, hl⟩ := List.exists_cons_of_ne_nil (triedBy_ne_nil environ filename outcome)
  rw [triedBy] at hl
  rw [hl, List.flatMap_cons, actsOf] at hacts
  cases hacts
end

theorem not_damaged_of_lt (mem : Garbage) {args : List CString} (h : args.length < 99) :
    ¬(argvOf mem args).Damaged := fun ⟨a, ha, hout⟩ =>
  hout (((Build.buildArgv_cases mem args).1 h).log a ha)

/-- Memory whose former contents are null pointers. -/
def zeroed : Garbage := ⟨fun _ _ => none, fun _ => none, false⟩

theorem strings_shArgv_of_lt (mem : Garbage) {args : List CString} (h : args.length < 99) :
    (shArgv mem (argvOf mem args)).strings 0 ((argvOf mem args).argc + 2) =
      SHELL_PATH :: args := by
  have hb := (Build.buildArgv_cases mem args).1 h
  exact strings_shArgv hb.cell (by rw [argvOf, hb.argc]; omega)

/-- The search is that of SUSv3 exactly when there are fewer than 99 arguments and the shell is only
executed for a file whose pathname is the first of them. -/
theorem execlp_asSpecified_iff (environ : List CString) (filename : CString)
    (args : List CString) (outcome : Nat → Attempt) :
    (∀ mem, AsSpecified environ filename args outcome
      (execlpArgs mem environ filename args outcome)) ↔
    args.length < 99 ∧ ∀ a ∈ triedBy environ filename outcome, a.2.err = some ENOEXEC →
      args.head? = some a.1 := by
  constructor
  · intro h
    have hlt : args.length < 99 := by
      by_contra hle
      have hdamaged := (Build.buildArgv_cases { zeroed with abort := true } args).2
        (Nat.le_of_not_lt hle)
      exact not_asSpecified_of_abort rfl hdamaged (h _)
    refine ⟨hlt, fun a ha he => ?_⟩
    have hmem : ¬(zeroed.abort ∧ (argvOf zeroed args).Damaged) := fun hmem =>
      Bool.noConfusion hmem.1
    have heq := (asSpecified_iff hmem).mp (h zeroed) a ha he
    rw [strings_shArgv_of_lt zeroed hlt, List.cons.injEq] at heq
    rw [heq.2]
    rfl
  · intro ⟨hlt, h⟩ mem
    refine (asSpecified_iff fun hmem => not_damaged_of_lt mem hlt hmem.2).mpr fun a ha he => ?_
    rw [strings_shArgv_of_lt mem hlt, List.cons_head?_tail (h a ha he)]

/-- A script "/s" is executed by the shell, which is told to run "s". -/
theorem execlp_not_asSpecified :
    ¬AsSpecified [] "/s".toList ["s".toList] (fun _ => ⟨some ENOEXEC, none⟩)
      (execlpArgs zeroed [] "/s".toList ["s".toList] fun _ => ⟨some ENOEXEC, none⟩) := by
  intro h
  have hacts := h.acts
  revert hacts
  decide

/-! ### Accesses to the arrays -/

/-- The accesses to the arrays are within them, and no argument is lost. -/
structure Safe (args : List CString) (b : Build) (r : Result) : Prop where
  inBounds : ∀ a ∈ r.log, a.InBounds
  kept : ∀ i ≤ args.length, b.argv.cell i = args[i]?

/-- `execShScript` always writes one element too many. -/
theorem exists_outOfBounds_shLog (b : Build) : ∃ a ∈ shLog b, ¬a.InBounds :=
  ⟨⟨.shArgv, b.argc + 1, b.argc + 1⟩,
    by simp [shLog], Nat.lt_irrefl _⟩

theorem log_tryFile (mem : Garbage) (b : Build) (envp : List CString) (a : CString × Attempt) :
    (tryFile mem b envp a.1 a.2).log = if a.2.err = some ENOEXEC then shLog b else [] := by
  obtain ⟨pathname, err, sh⟩ := a
  cases err with
  | none => rfl
  | some e => by_cases he : e = ENOEXEC <;> simp [tryFile, he]

/-- The arrays are not overrun exactly when there are fewer than 99 arguments and the shell is not
executed. -/
theorem execlp_safe_iff (environ : List CString) (filename : CString) (args : List CString)
    (outcome : Nat → Attempt) :
    (∀ mem, Safe args (argvOf mem args) (execlpArgs mem environ filename args outcome)) ↔
    args.length < 99 ∧ ∀ a ∈ triedBy environ filename outcome, a.2.err ≠ some ENOEXEC := by
  have hlog {mem : Garbage} (hmem : ¬(mem.abort ∧ (argvOf mem args).Damaged)) :
      (execlpArgs mem environ filename args outcome).log =
        (argvOf mem args).log ++ (triedBy environ filename outcome).flatMap fun a =>
          if a.2.err = some ENOEXEC then shLog (argvOf mem args) else [] := by
    rw [execlpArgs, execlp_eq environ filename outcome hmem]
    simp only [log_tryFile]
    rfl
  constructor
  · intro h
    have hin := (h zeroed).inBounds
    rw [hlog fun hmem => Bool.noConfusion hmem.1, List.forall_mem_append] at hin
    refine ⟨?_, fun a ha he => ?_⟩
    · by_contra hle
      obtain ⟨a, ha, hout⟩ := (Build.buildArgv_cases zeroed args).2 (Nat.le_of_not_lt hle)
      exact hout (hin.1 a ha)
    · obtain ⟨acc, hacc, hout⟩ := exists_outOfBounds_shLog (argvOf zeroed args)
      refine hout (hin.2 acc (List.mem_flatMap.mpr ⟨a, ha, ?_⟩))
      rwa [if_pos he]
  · intro h mem
    have hb := (Build.buildArgv_cases mem args).1 h.1
    refine ⟨?_, hb.cell⟩
    rw [hlog fun hmem => not_damaged_of_lt mem h.1 hmem.2, List.forall_mem_append]
    refine ⟨hb.log, fun acc hacc => ?_⟩
    obtain ⟨a, ha, hacc⟩ := List.mem_flatMap.mp hacc
    rw [if_neg (h.2 a ha)] at hacc
    cases hacc

/-- For a script with one argument, `execShScript` writes behind `shArgv`. -/
theorem execlp_not_safe :
    ¬Safe ["/s".toList] (argvOf zeroed ["/s".toList])
      (execlpArgs zeroed [] "/s".toList ["/s".toList] fun _ => ⟨some ENOEXEC, none⟩) := by
  intro h
  have hin := h.inBounds
  revert hin
  decide

end Tlpi.Execlp
