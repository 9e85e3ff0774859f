import Mathlib.Algebra.BigOperators.Ring.Finset
import Mathlib.Data.Finset.Piecewise
import Tlpi.Lib.Files
import Tlpi.Lib.Machine
import Tlpi.Lib.Monitor
import Tlpi.Lib.Tally

/-!
# Appending to one file (`fileio/atomic_append.c`)

Several processes append one byte after another to the same file. With `O_APPEND` a write finds the
end of the file by itself. Otherwise the offset comes from an `lseek` before it, and the write
overwrites what other processes have appended in between.
-/

namespace Tlpi.AtomicAppend

open Function

/-- The bytes that a process has written, and its file offset between `lseek` and `write`. -/
structure Proc where
  j : Nat
  fpos : Option Nat

structure State (ι : Type*) where
  data : List UInt8
  proc : ι → Proc

section

variable {ι : Type*} [DecidableEq ι]

/-- A step of a process: `lseek(fd, 0, SEEK_END)` or `write(fd, "x", 1)`. -/
def step (useLseek : Bool) (numBytes : ι → Nat) (s : State ι) (i : ι) : Option (State ι) :=
  match s.proc i with
  | ⟨j, none⟩ =>
    if j < numBytes i then
      some <| if useLseek then { s with proc := update s.proc i ⟨j, some s.data.length⟩ }
        else ⟨s.data ++ [120], update s.proc i ⟨j + 1, none⟩⟩
    else none
  | ⟨j, some fpos⟩ => some ⟨Files.overwrite s.data fpos [120], update s.proc i ⟨j + 1, none⟩⟩

def machine (useLseek : Bool) (numBytes : ι → Nat) : Machine (State ι) ι :=
  ⟨step useLseek numBytes⟩

end

/-- No process is between `lseek` and `write`. -/
def idle {ι : Type*} (data : List UInt8) (j : ι → Nat) : State ι := ⟨data, fun i => ⟨j i, none⟩⟩

/-- The file with `v` bytes appended. -/
def appended (data : List UInt8) (v : Nat) : List UInt8 := data ++ List.replicate v 120

theorem appended_append (data : List UInt8) (v : Nat) :
    appended (data ++ [120]) v = appended data (v + 1) := by
  rw [appended, appended, List.append_assoc, List.singleton_append, ← List.replicate_succ]

theorem appended_add (data : List UInt8) (m r : Nat) :
    appended data (m + r) = appended data m ++ List.replicate r 120 := by
  rw [appended, appended, List.replicate_add, List.append_assoc]

/-- A write at an old end of the file. -/
theorem overwrite_appended {data : List UInt8} {k m : Nat} (h : m ≤ k) :
    Files.overwrite (appended data k) (data.length + m) [120] = appended data (max k (m + 1)) := by
  obtain ⟨r, rfl⟩ := Nat.exists_eq_add_of_le h
  have hlen : data.length + m = (appended data m).length := by simp [appended]
  have hmax : max (m + r) (m + 1) = m + 1 + (r - 1) := by omega
  rw [hmax, appended_add, appended_add, hlen, Files.overwrite_append, appended_add]
  simp

section

variable {ι : Type*} [DecidableEq ι] {n : ι → Nat} {data : List UInt8} {p : ι → Proc} {j : ι → Nat}

/-! ### What may be left in the file -/

/-- Some processes find the same end of the file. -/
theorem reachable_lseek (A : Finset ι) (hA : ∀ i ∈ A, j i < n i) :
    (machine true n).Reachable (idle data j)
      ⟨data, A.piecewise (fun i => ⟨j i, some data.length⟩) fun i => ⟨j i, none⟩⟩ := by
  induction A using Finset.induction_on with
  | empty =>
    rw [Finset.piecewise_empty]
    exact .refl
  | insert i A hi ih =>
    refine .step (a := i) (ih fun k hk => hA k (Finset.mem_insert_of_mem hk)) trivial ?_
    rw [Finset.piecewise_insert]
    change step true n _ i = _
    simp [step, hi, hA i (Finset.mem_insert_self i A)]

/-- They all write there. -/
theorem reachable_write (A : Finset ι) (hA : ∀ i ∈ A, p i = ⟨j i, some data.length⟩) :
    (machine true n).Reachable ⟨data, p⟩
      ⟨if A = ∅ then data else data ++ [120], A.piecewise (fun i => ⟨j i + 1, none⟩) p⟩ := by
  induction A using Finset.induction_on with
  | empty =>
    rw [Finset.piecewise_empty, if_pos rfl]
    exact .refl
  | insert i A hi ih =>
    refine .step (a := i) (ih fun k hk => hA k (Finset.mem_insert_of_mem hk)) trivial ?_
    rw [Finset.piecewise_insert, if_neg (Finset.insert_ne_empty i A)]
    change step true n _ i = _
    simp only [step, Finset.piecewise_eq_of_notMem A _ _ hi, hA i (Finset.mem_insert_self i A)]
    split
    · rw [Files.overwrite_length]
    · rw [Files.overwrite_append]
      simp

/-- All but one of their bytes are lost. -/
theorem reachable_lockstep {A : Finset ι} (hne : A.Nonempty) (hA : ∀ i ∈ A, j i < n i) :
    (machine true n).Reachable (idle data j)
      (idle (data ++ [120]) (A.piecewise (fun i => j i + 1) j)) := by
  have hwrite := reachable_write (n := n)
    (p := A.piecewise (fun i => ⟨j i, some data.length⟩) fun i => ⟨j i, none⟩) A fun i hi =>
      Finset.piecewise_eq_of_mem A _ _ hi
  rw [Finset.piecewise_idem_right, if_neg hne.ne_empty] at hwrite
  have hidle : (A.piecewise (fun i => ⟨j i + 1, none⟩) fun i => ⟨j i, none⟩ : ι → Proc) =
      fun i => ⟨A.piecewise (fun i => j i + 1) j i, none⟩ := by
    funext i
    simp only [Finset.piecewise]
    split <;> rfl
  rw [hidle] at hwrite
  exact (reachable_lseek A hA).trans hwrite

variable [Fintype ι]

/-- As long as a single process may go first, it does, and then those that have the most bytes to
write go in step. -/
theorem exists_lockstep {v : Nat} (hmax : ∀ i, n i ≤ j i + (v + 1))
    (hsum : v + 1 ≤ ∑ i, (n i - j i)) : ∃ A : Finset ι, A.Nonempty ∧ (∀ i ∈ A, j i < n i) ∧
      (∀ i, n i ≤ A.piecewise (fun i => j i + 1) j i + v) ∧
      v ≤ ∑ i, (n i - A.piecewise (fun i => j i + 1) j i) := by
  by_cases hall : ∀ i, n i ≤ j i + v
  · obtain ⟨i, hi⟩ : ∃ i, j i < n i := by
      by_contra h
      have hzero : ∑ i, (n i - j i) = 0 := Finset.sum_eq_zero fun i _ => by
        have := not_exists.mp h i
        omega
      omega
    have htally : tally (fun i x => n i - x) (update j i (j i + 1)) + (n i - j i) =
        ∑ i, (n i - j i) + (n i - (j i + 1)) := tally_update _ j i _
    refine ⟨{i}, Finset.singleton_nonempty i, fun k hk => ?_, fun k => ?_, ?_⟩
    · rwa [Finset.mem_singleton.mp hk]
    · rw [Finset.piecewise_singleton]
      exact forall_update (p := fun k x => n k ≤ x + v) (by have := hall i; omega) hall k
    · rw [Finset.piecewise_singleton]
      rw [tally] at htally
      omega
  · obtain ⟨i, hi⟩ := not_forall.mp hall
    have hi : n i = j i + v + 1 := by
      have := hmax i
      omega
    refine ⟨Finset.univ.filter fun k => n k = j k + v + 1, ⟨i, by simpa using hi⟩, fun k hk => ?_,
      fun k => ?_, ?_⟩
    · have := (Finset.mem_filter.mp hk).2
      omega
    · have := hmax k
      simp only [Finset.piecewise, Finset.mem_filter, Finset.mem_univ, true_and]
      split <;> omega
    · refine le_trans ?_ (Finset.single_le_sum (fun _ _ => Nat.zero_le _) (Finset.mem_univ i))
      rw [Finset.piecewise_eq_of_mem _ _ _ (by simpa using hi)]
      omega

/-- Every size in between is reached. -/
theorem reachable_appended {v : Nat} (hle : ∀ i, j i ≤ n i) (hmax : ∀ i, n i ≤ j i + v)
    (hsum : v ≤ ∑ i, (n i - j i)) :
    (machine true n).Reachable (idle data j) (idle (appended data v) n) := by
  induction v generalizing data j with
  | zero =>
    have hj : j = n := funext fun i => le_antisymm (hle i) (hmax i)
    rw [hj, appended, List.replicate_zero, List.append_nil]
    exact .refl
  | succ v ih =>
    obtain ⟨A, hne, hA, hmax', hsum'⟩ := exists_lockstep hmax hsum
    have hle' (i : ι) : A.piecewise (fun i => j i + 1) j i ≤ n i := by
      simp only [Finset.piecewise]
      split
      · next hi => exact hA i hi
      · exact hle i
    rw [← appended_append]
    exact (reachable_lockstep hne hA).trans (ih hle' hmax' hsum')

end

/-! ### With `lseek` -/

/-- The process has written `p.j` of its `n` bytes; `k` have been appended to a file of `len`
bytes. -/
structure Proc.Ok (n len k : Nat) (p : Proc) : Prop where
  j_le : p.j ≤ n
  j_le' : p.j ≤ k
  fpos : ∀ o, p.fpos = some o → p.j < n ∧ ∃ m, o = len + m ∧ p.j ≤ m ∧ m ≤ k

section

variable {ι : Type*} [Fintype ι] {n : ι → Nat} {data : List UInt8} {s t : State ι} {i : ι} {k : Nat}

def State.written (s : State ι) : Nat := tally (fun _ p => p.j) s.proc

structure Inv (n : ι → Nat) (data : List UInt8) (k : Nat) (s : State ι) : Prop where
  file : s.data = appended data k
  le : k ≤ s.written
  ok : ∀ i, (s.proc i).Ok (n i) data.length k

def Proc.rank (n : Nat) (p : Proc) : Nat := 2 * (n - p.j) - p.fpos.isSome.toNat

def State.rank (n : ι → Nat) (s : State ι) : Nat := tally (fun i p => Proc.rank (n i) p) s.proc

variable [DecidableEq ι]

theorem Proc.Ok.mono {n len k k' : Nat} {p : Proc} (h : p.Ok n len k) (hk : k ≤ k') :
    p.Ok n len k' where
  j_le := h.j_le
  j_le' := h.j_le'.trans hk
  fpos o ho := by
    obtain ⟨hj, m, hm, hjm, hmk⟩ := h.fpos o ho
    exact ⟨hj, m, hm, hjm, hmk.trans hk⟩

theorem Inv.lseek {j : Nat} (h : Inv n data k s) (hi : s.proc i = ⟨j, none⟩) (hj : j < n i) :
    Inv n data k { s with proc := update s.proc i ⟨j, some s.data.length⟩ } := by
  have hok := h.ok i
  rw [hi] at hok
  have hwritten : tally (fun _ (p : Proc) => p.j) (update s.proc i ⟨j, some s.data.length⟩) =
      s.written := tally_update_of_eq (by simp [hi])
  refine ⟨h.file, by rw [State.written, hwritten]; exact h.le, ?_⟩
  refine forall_update (p := fun k' (p : Proc) => p.Ok (n k') data.length k) ?_ h.ok
  refine ⟨hok.j_le, hok.j_le', fun o ho => ⟨hj, k, ?_, hok.j_le', le_rfl⟩⟩
  cases ho
  rw [h.file, appended, List.length_append, List.length_replicate]

/-- The file never gets shorter than what a process has written, as its own writes never overlap. -/
theorem Inv.write {j fpos : Nat} (h : Inv n data k s) (hi : s.proc i = ⟨j, some fpos⟩) :
    ∃ k, Inv n data k
      ⟨Files.overwrite s.data fpos [120], update s.proc i ⟨j + 1, none⟩⟩ := by
  have hok := h.ok i
  rw [hi] at hok
  obtain ⟨hj, m, rfl, hjm, hmk⟩ := hok.fpos _ rfl
  have hwritten : tally (fun _ (p : Proc) => p.j) (update s.proc i ⟨j + 1, none⟩) =
      s.written + 1 := by
    have := tally_update (fun _ (p : Proc) => p.j) s.proc i ⟨j + 1, none⟩
    simp only [hi] at this
    rw [State.written]
    omega
  have hle := h.le
  dsimp only at hj hjm
  refine ⟨max k (m + 1), ?_, ?_, ?_⟩
  · rw [h.file, overwrite_appended hmk]
  · rw [State.written, hwritten]
    omega
  · refine forall_update (p := fun k' (p : Proc) => p.Ok (n k') data.length (max k (m + 1))) ?_
      fun k' => (h.ok k').mono (le_max_left ..)
    exact ⟨hj, by dsimp only; omega, by simp⟩

theorem Inv.step (h : Inv n data k s) (hn : step true n s i = some t) :
    (∃ k, Inv n data k t) ∧ s.rank n = t.rank n + 1 := by
  have hrank (p : Proc) := tally_update (fun i p => Proc.rank (n i) p) s.proc i p
  rcases hi : s.proc i with ⟨j, _ | fpos⟩
  · simp only [AtomicAppend.step, hi, if_true, Option.ite_none_right_eq_some,
      Option.some.injEq] at hn
    obtain ⟨hj, rfl⟩ := hn
    have := hrank ⟨j, some s.data.length⟩
    simp only [hi, Proc.rank, Option.isSome_none, Option.isSome_some, Bool.toNat_false,
      Bool.toNat_true] at this
    exact ⟨⟨k, h.lseek hi hj⟩, by simp only [State.rank, Proc.rank]; omega⟩
  · simp only [AtomicAppend.step, hi, Option.some.injEq] at hn
    subst hn
    have hj := ((h.ok i).fpos fpos (by rw [hi])).1
    have := hrank ⟨j + 1, none⟩
    simp only [hi, Proc.rank, Option.isSome_none, Option.isSome_some, Bool.toNat_false,
      Bool.toNat_true] at this hj
    exact ⟨h.write hi, by simp only [State.rank, Proc.rank]; omega⟩

/-- A process can always go on until it has written all its bytes. -/
theorem Inv.done_or_step (h : Inv n data k s) :
    ((∃ v ≤ ∑ i, n i, (∀ i, n i ≤ v) ∧ s = idle (appended data v) n) ∧ s.rank n = 0) ∨
      ∃ i t, AtomicAppend.step true n s i = some t := by
  by_cases hdone : ∀ i, s.proc i = ⟨n i, none⟩
  · obtain ⟨d, proc⟩ := s
    obtain rfl : proc = fun i => ⟨n i, none⟩ := funext hdone
    have hfile : d = appended data k := h.file
    refine .inl ⟨⟨k, h.le, fun i => (h.ok i).j_le', by rw [hfile, idle]⟩, ?_⟩
    simp [State.rank, tally, Proc.rank]
  · refine .inr ?_
    obtain ⟨i, hi⟩ := not_forall.mp hdone
    refine ⟨i, ?_⟩
    rcases hp : s.proc i with ⟨j, _ | fpos⟩
    · have hj := (h.ok i).j_le
      rw [hp] at hi hj
      have hj : j < n i := lt_of_le_of_ne hj fun heq => hi (by rw [heq])
      simp [AtomicAppend.step, hp, hj]
    · simp [AtomicAppend.step, hp]

end

/-! ### With `O_APPEND` -/

section

variable {ι : Type*} [Fintype ι] {n : ι → Nat} {data : List UInt8} {s t : State ι} {i : ι}

structure AppendInv (n : ι → Nat) (data : List UInt8) (s : State ι) : Prop where
  file : s.data = appended data s.written
  fpos : ∀ i, (s.proc i).fpos = none
  j_le : ∀ i, (s.proc i).j ≤ n i

variable [DecidableEq ι]

theorem AppendInv.step (h : AppendInv n data s) (hn : step false n s i = some t) :
    AppendInv n data t ∧ ∑ i, n i - s.written = (∑ i, n i - t.written) + 1 := by
  rcases hi : s.proc i with ⟨j, fpos⟩
  obtain rfl : fpos = none := by simpa [hi] using h.fpos i
  simp only [AtomicAppend.step, hi, Bool.false_eq_true, if_false, Option.ite_none_right_eq_some,
    Option.some.injEq] at hn
  obtain ⟨hj, rfl⟩ := hn
  have hwritten : tally (fun _ (p : Proc) => p.j) (update s.proc i ⟨j + 1, none⟩) =
      s.written + 1 := by
    have := tally_update (fun _ (p : Proc) => p.j) s.proc i ⟨j + 1, none⟩
    simp only [hi] at this
    rw [State.written]
    omega
  have hle : ∀ k, (update s.proc i ⟨j + 1, none⟩ k).j ≤ n k :=
    forall_update (p := fun k (p : Proc) => p.j ≤ n k) hj h.j_le
  have hsum : s.written + 1 ≤ ∑ i, n i := by
    rw [← hwritten]
    exact Finset.sum_le_sum fun k _ => hle k
  refine ⟨⟨?_, ?_, hle⟩, ?_⟩
  · rw [State.written, hwritten, appended_add, ← h.file]
    rfl
  · exact forall_update (p := fun _ (p : Proc) => p.fpos = none) rfl h.fpos
  · simp only [State.written] at hwritten hsum ⊢
    omega

theorem AppendInv.done_or_step (h : AppendInv n data s) :
    (s = idle (appended data (∑ i, n i)) n ∧ ∑ i, n i - s.written = 0) ∨
      ∃ i t, AtomicAppend.step false n s i = some t := by
  by_cases hdone : ∀ i, (s.proc i).j = n i
  · have hwritten : s.written = ∑ i, n i := Finset.sum_congr rfl fun i _ => hdone i
    obtain ⟨d, proc⟩ := s
    have hproc : proc = fun i => ⟨n i, none⟩ := funext fun i => by
      rw [← hdone i, ← h.fpos i]
    have hfile : d = appended data _ := h.file
    exact .inl ⟨by rw [hfile, hwritten, hproc, idle], by rw [hwritten, Nat.sub_self]⟩
  · obtain ⟨i, hi⟩ := not_forall.mp hdone
    have hj : (s.proc i).j < n i := lt_of_le_of_ne (h.j_le i) hi
    have hfpos := h.fpos i
    rcases hp : s.proc i with ⟨j, fpos⟩
    rw [hp] at hj hfpos
    obtain rfl : fpos = none := hfpos
    exact .inr ⟨i, by simpa [AtomicAppend.step, hp] using hj⟩

end

/-! ### Both -/

/-- With `O_APPEND` nothing is lost. With `lseek` the size may become any from what the process with
the most bytes appends to what all append together. -/
theorem appends_exact {ι : Type*} [Fintype ι] [DecidableEq ι] (n : ι → Nat) (data : List UInt8) :
    (machine false n).EndsIn (idle data 0) (∑ i, n i) (· = idle (appended data (∑ i, n i)) n) ∧
    (machine true n).EndsIn (idle data 0) (2 * ∑ i, n i) (fun s =>
      ∃ v ≤ ∑ i, n i, (∀ i, n i ≤ v) ∧ s = idle (appended data v) n) ∧
    ∀ v ≤ ∑ i, n i, (∀ i, n i ≤ v) →
      (machine true n).Reachable (idle data 0) (idle (appended data v) n) := by
  have hfile : data = appended data 0 := (List.append_nil data).symm
  have hwritten : (idle data 0 : State ι).written = 0 := tally_eq_zero fun _ => rfl
  refine ⟨?_, ?_, fun v hv hle => ?_⟩
  · have hinit : ∑ i, n i - (idle data 0 : State ι).written = ∑ i, n i := by
      rw [hwritten, Nat.sub_zero]
    rw [← hinit]
    refine .of_rank (I := AppendInv n data) (r := fun s => ∑ i, n i - s.written)
      (fun _ _ _ h hn => (h.step hn).1) (fun _ _ _ h hn => (h.step hn).2)
      (fun s h => ?_) ⟨by rwa [hwritten], fun _ => rfl, fun _ => Nat.zero_le _⟩
    rw [hinit]
    exact h.done_or_step
  · have hinit : (idle data 0 : State ι).rank n = 2 * ∑ i, n i := by
      simp [State.rank, tally, idle, Proc.rank, Finset.mul_sum]
    rw [← hinit]
    refine .of_rank (I := fun s => ∃ k, Inv n data k s) (fun s i t h hn => ?_)
      (fun s i t h hn => ?_) (fun s h => ?_) ⟨0, hfile, Nat.zero_le _,
        fun _ => ⟨Nat.zero_le _, le_rfl, by simp [idle]⟩⟩
    · obtain ⟨_, h⟩ := h
      exact (h.step hn).1
    · obtain ⟨_, h⟩ := h
      exact (h.step hn).2
    · obtain ⟨_, h⟩ := h
      exact h.done_or_step
  · exact reachable_appended (fun _ => Nat.zero_le _) (by simpa using hle) (by simpa using hv)

/-- Of the two million bytes of the usage example, half may be lost. -/
theorem appends_exact_half : (machine true fun _ : Fin 2 => 1000000).Reachable (idle [] 0)
    (idle (appended [] 1000000) fun _ => 1000000) :=
  (appends_exact (fun _ : Fin 2 => 1000000) []).2.2 1000000 (by simp) fun _ => le_rfl

end Tlpi.AtomicAppend
