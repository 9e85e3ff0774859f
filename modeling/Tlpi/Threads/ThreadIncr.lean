import Mathlib.Data.Fin.VecNotation
import Tlpi.Lib.CInt
import Tlpi.Lib.Lock
import Tlpi.Lib.Machine
import Tlpi.Lib.Monitor
import Tlpi.Lib.Tally

/-!
# Threads that increment a counter (`thread_incr.cpp` and its synchronized versions)

Two threads increment `glob` in a loop, each time with a read and a write. Without synchronization a
write may undo any number of increments of the other thread in between. The other versions
(`thread_incr_mutex.cpp`, `thread_incr_spinlock.c`, `thread_incr_rwlock.c`, `thread_incr_psem.c`)
put a lock around the two accesses and differ in the lock only.
-/

namespace Tlpi.ThreadIncr

open Function

/-! ### Without synchronization -/

/-- The iterations that a thread has completed, and `loc` while it has read `glob` and not yet
written it. -/
structure Thread where
  j : Nat
  loc : Option Int
  deriving DecidableEq

structure State (ι : Type*) where
  glob : Int
  thread : ι → Thread

section

variable {ι : Type*} [DecidableEq ι]

def State.init : State ι := ⟨0, fun _ => ⟨0, none⟩⟩

/-- A step of a thread: `loc = glob`, or `loc++` and `glob = loc`. -/
def step (loops : Nat) (s : State ι) (i : ι) : Option (State ι) :=
  match (s.thread i).loc with
  | none =>
    if (s.thread i).j < loops then
      some { s with thread := update s.thread i ⟨(s.thread i).j, some s.glob⟩ }
    else none
  | some loc => some {
      glob := wrap32 (loc + 1)
      thread := update s.thread i ⟨(s.thread i).j + 1, none⟩ }

def machine (ι : Type*) [DecidableEq ι] (loops : Nat) : Machine (State ι) ι := ⟨step loops⟩

/-- All threads have returned. -/
def State.Done (loops : Nat) (s : State ι) : Prop := ∀ i, (s.thread i).j = loops

/-- The program may print `v`. -/
def Prints (loops : Nat) (v : Int) : Prop :=
  ∃ s, (machine (Fin 2) loops).Reachable .init s ∧ s.Done loops ∧ s.glob = v

end

/-! ### The bounds -/

/-- A thread after `writes` writes in all: once it has written itself, it does not read zero. -/
structure Thread.Ok (loops writes : Nat) (th : Thread) : Prop where
  j_le : th.j ≤ loops
  loc : ∀ loc, th.loc = some loc →
    th.j < loops ∧ 0 ≤ loc ∧ loc ≤ writes ∧ (0 < th.j → 0 < loc)

section

variable {ι : Type*} [Fintype ι] {loops : Nat} {s t : State ι} {i : ι}

/-- The writes so far. -/
def State.writes (s : State ι) : Nat := tally (fun _ th => th.j) s.thread

structure Inv (loops : Nat) (s : State ι) : Prop where
  ok : ∀ i, (s.thread i).Ok loops s.writes
  glob_nonneg : 0 ≤ s.glob
  glob_le : s.glob ≤ s.writes
  glob_pos : 0 < s.writes → 0 < s.glob
  done : s.Done loops → min loops 2 ≤ s.glob

theorem j_le_writes (s : State ι) (i : ι) : (s.thread i).j ≤ s.writes :=
  Finset.single_le_sum (f := fun i => (s.thread i).j) (fun _ _ => Nat.zero_le _) (Finset.mem_univ i)

theorem Thread.Ok.mono {writes writes' : Nat} {th : Thread} (h : th.Ok loops writes)
    (hle : writes ≤ writes') : th.Ok loops writes' where
  j_le := h.j_le
  loc loc hloc := by
    obtain ⟨hj, h0, hl, hpos⟩ := h.loc loc hloc
    exact ⟨hj, h0, by omega, hpos⟩

theorem inv_init [Nonempty ι] : Inv loops (State.init : State ι) where
  ok _ := ⟨Nat.zero_le _, fun loc hloc => by cases hloc⟩
  glob_nonneg := le_rfl
  glob_le := Int.natCast_nonneg _
  glob_pos h := by simp [State.writes, State.init, tally] at h
  done h := by
    have hloops : 0 = loops := h (Classical.arbitrary ι)
    simp [← hloops, State.init]

variable [DecidableEq ι]

theorem Inv.step (h : Inv loops s) (hmax : Fintype.card ι * loops < 2 ^ 31)
    (hn : step loops s i = some t) : Inv loops t := by
  rw [ThreadIncr.step] at hn
  split at hn
  · next hloc =>
    rw [Option.ite_none_right_eq_some] at hn
    obtain ⟨hj, hn⟩ := hn
    cases hn
    have hwrites : tally (fun _ th => th.j) (update s.thread i ⟨(s.thread i).j, some s.glob⟩) =
        s.writes := tally_update_of_eq rfl
    have hok : Thread.Ok loops s.writes ⟨(s.thread i).j, some s.glob⟩ := by
      refine ⟨(h.ok i).j_le, fun loc hloc => ?_⟩
      cases hloc
      exact ⟨hj, h.glob_nonneg, h.glob_le, fun hpos => h.glob_pos (hpos.trans_le (j_le_writes s i))⟩
    refine ⟨?_, h.glob_nonneg, ?_, ?_, fun hdone => ?_⟩
    · rw [State.writes, hwrites]
      exact forall_update (p := fun _ (th : Thread) => th.Ok loops s.writes) hok h.ok
    · rw [State.writes, hwrites]
      exact h.glob_le
    · rw [State.writes, hwrites]
      exact h.glob_pos
    · have hi := hdone i
      dsimp only at hi
      rw [update_self] at hi
      exact absurd hi hj.ne
  · next loc hloc =>
    cases hn
    obtain ⟨hj, h0, hle, hpos⟩ := (h.ok i).loc loc hloc
    have hwrites : tally (fun _ th => th.j) (update s.thread i ⟨(s.thread i).j + 1, none⟩) =
        s.writes + 1 := by
      have htally : tally (fun _ th => th.j) (update s.thread i ⟨(s.thread i).j + 1, none⟩) +
          (s.thread i).j = tally (fun _ th => th.j) s.thread + ((s.thread i).j + 1) :=
        tally_update _ s.thread i _
      rw [State.writes]
      omega
    -- The counter cannot overflow.
    have hmax' : s.writes + 1 ≤ Fintype.card ι * loops := by
      rw [← hwrites]
      exact tally_le_card_mul
        (forall_update (p := fun _ (th : Thread) => th.j ≤ loops) hj fun k => (h.ok k).j_le)
    have hwrap : wrap32 (loc + 1) = loc + 1 := wrap_eq_self (by omega) (by omega)
    refine ⟨?_, ?_, ?_, fun _ => ?_, fun hdone => ?_⟩
    · rw [State.writes, hwrites]
      exact forall_update (p := fun _ (th : Thread) => th.Ok loops (s.writes + 1)) ⟨hj, by simp⟩
        fun k => (h.ok k).mono (Nat.le_succ _)
    · dsimp only
      omega
    · rw [State.writes, hwrites]
      dsimp only
      omega
    · dsimp only
      omega
    · -- A thread that writes more than once has not read zero before its last write.
      have hi := hdone i
      dsimp only at hi
      rw [update_self] at hi
      dsimp only at hi ⊢
      omega

theorem inv_of_reachable [Nonempty ι] (hmax : Fintype.card ι * loops < 2 ^ 31)
    (h : (machine ι loops).Reachable .init s) : Inv loops s :=
  h.invariant inv_init fun _ _ _ hi _ hn => hi.step hmax hn

/-- What any number of threads leave in the counter. -/
theorem bounds_of_done [Nonempty ι] (hmax : Fintype.card ι * loops < 2 ^ 31)
    (h : (machine ι loops).Reachable .init s) (hdone : s.Done loops) :
    min loops 2 ≤ s.glob ∧ s.glob ≤ Fintype.card ι * loops := by
  have hinv := inv_of_reachable hmax h
  have hle : s.writes ≤ Fintype.card ι * loops := tally_le_card_mul fun i => (hinv.ok i).j_le
  have hglob := hinv.glob_le
  exact ⟨hinv.done hdone, by push_cast at *; omega⟩

end

/-! ### Every value in between -/

section

variable {ι : Type*} [DecidableEq ι] (loops : Nat) {s : State ι} {i : ι} {j : Nat}

theorem reachable_read (hi : s.thread i = ⟨j, none⟩) (hj : j < loops) :
    (machine ι loops).Reachable s ⟨s.glob, update s.thread i ⟨j, some s.glob⟩⟩ := by
  refine .step (a := i) .refl trivial ?_
  change step loops s i = _
  simp [step, hi, hj]

theorem reachable_write (loc : Int) (hi : s.thread i = ⟨j, some loc⟩) (h0 : 0 ≤ loc)
    (hmax : loc + 1 < 2 ^ 31) :
    (machine ι loops).Reachable s ⟨loc + 1, update s.thread i ⟨j + 1, none⟩⟩ := by
  refine .step (a := i) .refl trivial ?_
  change step loops s i = _
  simp only [step, hi]
  rw [show wrap32 (loc + 1) = loc + 1 from wrap_eq_self (by omega) (by omega)]

/-- A thread that runs alone loses nothing. -/
theorem reachable_alone (m : Nat) (hi : s.thread i = ⟨j, none⟩) (hm : j + m ≤ loops)
    (h0 : 0 ≤ s.glob) (hmax : s.glob + m < 2 ^ 31) :
    (machine ι loops).Reachable s ⟨s.glob + m, update s.thread i ⟨j + m, none⟩⟩ := by
  induction m with
  | zero =>
    simp only [Nat.cast_zero, add_zero, ← hi, update_eq_self]
    exact .refl
  | succ m ih =>
    have hread := reachable_read loops
      (s := ⟨s.glob + m, update s.thread i ⟨j + m, none⟩⟩) (update_self ..) (by omega)
    have hwrite := reachable_write loops (s.glob + m)
      (s := ⟨s.glob + m, update (update s.thread i ⟨j + m, none⟩) i ⟨j + m, some (s.glob + m)⟩⟩)
      (update_self ..) (by omega) (by omega)
    simp only [update_idem, add_assoc] at hread hwrite
    exact ((ih (by omega) (by omega)).trans hread).trans (by exact_mod_cast hwrite)

/-- A write undoes whatever the other thread has written since the read. -/
theorem reachable_overlap {k : ι} {l : Nat} (m : Nat) (hik : i ≠ k) (hi : s.thread i = ⟨j, none⟩)
    (hk : s.thread k = ⟨l, none⟩) (hj : j < loops) (hm : l + m ≤ loops) (h0 : 0 ≤ s.glob)
    (hmax : s.glob + m + 1 < 2 ^ 31) : (machine ι loops).Reachable s
      ⟨s.glob + 1, update (update s.thread k ⟨l + m, none⟩) i ⟨j + 1, none⟩⟩ := by
  have hread := reachable_read loops hi hj
  have halone := reachable_alone loops
    (s := ⟨s.glob, update s.thread i ⟨j, some s.glob⟩⟩) m ((update_of_ne hik.symm ..).trans hk)
    hm h0 (by dsimp only; omega)
  have hwrite := reachable_write loops s.glob (j := j)
    (s := ⟨s.glob + m, update (update s.thread i ⟨j, some s.glob⟩) k ⟨l + m, none⟩⟩)
    ((update_of_ne hik ..).trans (update_self ..)) h0 (by omega)
  rw [update_comm hik, update_idem] at hwrite
  dsimp only at halone
  rw [update_comm hik] at halone
  exact (hread.trans halone).trans hwrite

end

section

theorem update_pair_zero (a b c : Thread) : update ![a, b] 0 c = ![c, b] :=
  Fin.update_cons_zero ..

theorem update_pair_one (a b c : Thread) : update ![a, b] 1 c = ![a, c] :=
  funext (Fin.forall_fin_two.mpr ⟨rfl, rfl⟩)

theorem init_pair : (State.init : State (Fin 2)) = ⟨0, ![⟨0, none⟩, ⟨0, none⟩]⟩ :=
  congrArg _ (funext (Fin.forall_fin_two.mpr ⟨rfl, rfl⟩))

/-- One thread starts over from `k` after the other has all but returned, and loses in turn all but
`m` of its increments to the last write of that one. -/
theorem prints_of_le {n k m : Nat} (hk : k ≤ n) (hm : m ≤ n) (hmax : 2 * (n + 1) < 2 ^ 31) :
    Prints (n + 1) (k + m + 2) := by
  have h1 : (machine (Fin 2) (n + 1)).Reachable .init ⟨k, ![⟨0, none⟩, ⟨k, none⟩]⟩ := by
    rw [init_pair]
    simpa [update_pair_one] using reachable_alone (n + 1)
      (s := ⟨0, ![⟨0, none⟩, ⟨0, none⟩]⟩) (i := 1) k rfl (by omega) (by simp) (by dsimp only; omega)
  have h2 := reachable_overlap (n + 1) (s := ⟨k, ![⟨0, none⟩, ⟨k, none⟩]⟩) (i := 0) (k := 1)
    (n - k) (by simp) rfl rfl (by omega) (by omega) (by simp) (by dsimp only; omega)
  rw [update_pair_one, update_pair_zero, Nat.add_sub_cancel' hk] at h2
  have h3 := reachable_alone (n + 1) (s := ⟨(k : Int) + 1, ![⟨0 + 1, none⟩, ⟨n, none⟩]⟩)
    (i := 0) m rfl (by omega) (by dsimp only; omega) (by dsimp only; omega)
  rw [update_pair_zero] at h3
  have h4 := reachable_overlap (n + 1)
    (s := ⟨(k : Int) + 1 + m, ![⟨0 + 1 + m, none⟩, ⟨n, none⟩]⟩) (i := 1) (k := 0)
    (n - m) (by simp) rfl rfl (by omega) (by omega) (by dsimp only; omega) (by dsimp only; omega)
  rw [update_pair_zero, update_pair_one] at h4
  refine ⟨_, ((h1.trans h2).trans h3).trans h4, Fin.forall_fin_two.mpr ⟨?_, rfl⟩, ?_⟩
  · change 0 + 1 + m + (n - m) = n + 1
    omega
  · dsimp only
    omega

theorem prints_one : Prints 1 1 := by
  have h := reachable_overlap 1 (s := ⟨0, ![⟨0, none⟩, ⟨0, none⟩]⟩) (i := 0) (k := 1) 1
    (by simp) rfl rfl (by simp) (by simp) (by simp) (by simp)
  rw [update_pair_one, update_pair_zero, ← init_pair] at h
  exact ⟨_, h, Fin.forall_fin_two.mpr ⟨rfl, rfl⟩, rfl⟩

/-- The values that two threads may leave: all from 2 on, and 1 if each increments once. -/
theorem prints_iff {loops : Nat} (h0 : 0 < loops) (hmax : 2 * loops < 2 ^ 31) (v : Int) :
    Prints loops v ↔ min loops 2 ≤ v ∧ v ≤ 2 * loops := by
  constructor
  · rintro ⟨s, hs, hdone, rfl⟩
    simpa using bounds_of_done (by simpa using hmax) hs hdone
  · intro ⟨hmin, hv⟩
    obtain ⟨n, rfl⟩ : ∃ n, loops = n + 1 := ⟨loops - 1, by omega⟩
    rcases lt_or_ge v 2 with hlt | hge
    · obtain rfl : n = 0 := by omega
      obtain rfl : v = 1 := by omega
      exact prints_one
    · obtain ⟨k, m, hk, hm, rfl⟩ : ∃ k m : Nat, k ≤ n ∧ m ≤ n ∧ v = k + m + 2 :=
        ⟨min n (v - 2).toNat, (v - 2).toNat - n, by omega, by omega, by omega⟩
      exact prints_of_le hk hm hmax

/-- Of the twenty million increments that are the default, all but two may be lost. -/
theorem prints_two : Prints 10000000 2 := (prints_iff (by simp) (by simp) 2).mpr (by simp)

end

/-! ### With a lock -/

inductive Pc
  | outside
  | locked
  | loaded (loc : Int)
  | stored
  deriving DecidableEq

namespace Sync

structure Thread where
  j : Nat
  pc : Pc
  deriving DecidableEq

structure State (γ ι : Type*) where
  glob : Int
  lock : γ
  thread : ι → Thread

section

variable {γ ι : Type*} [DecidableEq ι]

def State.init (L : Lock γ) : State γ ι := ⟨0, L.init, fun _ => ⟨0, .outside⟩⟩

def step (L : Lock γ) (loops : Nat) (s : State γ ι) (i : ι) : Option (State γ ι) :=
  match s.thread i with
  | ⟨j, .outside⟩ =>
    if j < loops then
      (L.acquire s.lock).map fun g =>
        { s with lock := g, thread := update s.thread i ⟨j, .locked⟩ }
    else none
  | ⟨j, .locked⟩ => some { s with thread := update s.thread i ⟨j, .loaded s.glob⟩ }
  | ⟨j, .loaded loc⟩ => some {
      glob := wrap32 (loc + 1)
      lock := s.lock
      thread := update s.thread i ⟨j, .stored⟩ }
  | ⟨j, .stored⟩ => some {
      glob := s.glob
      lock := L.release s.lock
      thread := update s.thread i ⟨j + 1, .outside⟩ }

def machine (L : Lock γ) (ι : Type*) [DecidableEq ι] (loops : Nat) : Machine (State γ ι) ι :=
  ⟨step L loops⟩

theorem step_cases {L : Lock γ} {loops : Nat} {s t : State γ ι} {i : ι}
    (hn : step L loops s i = some t) : ∃ j,
      (∃ g, s.thread i = ⟨j, .outside⟩ ∧ j < loops ∧ L.acquire s.lock = some g ∧
        t = ⟨s.glob, g, update s.thread i ⟨j, .locked⟩⟩) ∨
      (s.thread i = ⟨j, .locked⟩ ∧
        t = ⟨s.glob, s.lock, update s.thread i ⟨j, .loaded s.glob⟩⟩) ∨
      (∃ loc, s.thread i = ⟨j, .loaded loc⟩ ∧
        t = ⟨wrap32 (loc + 1), s.lock, update s.thread i ⟨j, .stored⟩⟩) ∨
      (s.thread i = ⟨j, .stored⟩ ∧
        t = ⟨s.glob, L.release s.lock, update s.thread i ⟨j + 1, .outside⟩⟩) := by
  rw [step] at hn
  split at hn
  · next j hi =>
    simp only [Option.ite_none_right_eq_some, Option.map_eq_some_iff] at hn
    obtain ⟨hj, g, hg, rfl⟩ := hn
    exact ⟨j, .inl ⟨g, hi, hj, hg, rfl⟩⟩
  · next j hi => exact ⟨j, .inr (.inl ⟨hi, (Option.some.inj hn).symm⟩)⟩
  · next j loc hi => exact ⟨j, .inr (.inr (.inl ⟨loc, hi, (Option.some.inj hn).symm⟩))⟩
  · next j hi => exact ⟨j, .inr (.inr (.inr ⟨hi, (Option.some.inj hn).symm⟩))⟩

end

/-- The lock of `thread_incr_mutex.cpp`. -/
def mtx := Lock.mutex

/-- The lock of `thread_incr_spinlock.c`. -/
def splock := Lock.mutex

/-- The lock of `thread_incr_rwlock.c`. -/
def rwlock := Lock.rwlock

/-- The lock of `thread_incr_psem.c`. -/
def sem := Lock.semaphore

def Thread.inside (th : Thread) : Prop := th.pc ≠ .outside

/-- The increments of a thread so far. -/
def Thread.writes (th : Thread) : Nat := if th.pc = .stored then th.j + 1 else th.j

/-- The steps that a thread has taken. -/
def Thread.steps : Thread → Nat
  | ⟨j, .outside⟩ => 4 * j
  | ⟨j, .locked⟩ => 4 * j + 1
  | ⟨j, .loaded _⟩ => 4 * j + 2
  | ⟨j, .stored⟩ => 4 * j + 3

theorem step_of_inside {γ ι : Type*} [DecidableEq ι] {L : Lock γ} {loops : Nat} {s : State γ ι}
    {i : ι} (hi : (s.thread i).inside) : ∃ t, step L loops s i = some t := by
  rcases hth : s.thread i with ⟨j, _ | _ | loc | _⟩
  · simp [Thread.inside, hth] at hi
  all_goals simp [step, hth]

structure Thread.Ok (loops : Nat) (glob : Int) (th : Thread) : Prop where
  j_le : th.j ≤ loops
  j_lt : th.inside → th.j < loops
  loc : ∀ loc, th.pc = .loaded loc → loc = glob

structure Inv {γ ι : Type*} [Fintype ι] (L : Lock γ) (loops : Nat) (s : State γ ι) : Prop where
  guarded : Guarded L (fun i => (s.thread i).inside) s.lock
  ok : ∀ i, (s.thread i).Ok loops s.glob
  glob : s.glob = tally (fun _ th => th.writes) s.thread

section

variable {γ ι : Type*} [Fintype ι] {L : Lock γ} {loops : Nat} {s t : State γ ι} {i : ι}

theorem inv_init : Inv L loops (State.init L : State γ ι) where
  guarded := .free L.free_init fun _ h => h rfl
  ok _ := ⟨Nat.zero_le _, fun h => absurd rfl h, fun _ h => by cases h⟩
  glob := by simp [State.init, tally, Thread.writes]

theorem Thread.Ok.writes_le {glob : Int} {th : Thread} (h : th.Ok loops glob) :
    th.writes ≤ loops := by
  rw [writes]
  split
  · next hpc => exact h.j_lt (by simp [inside, hpc])
  · exact h.j_le

/-- All threads have returned. -/
def State.Done (loops : Nat) (s : State γ ι) : Prop := ∀ i, s.thread i = ⟨loops, .outside⟩

def State.steps (s : State γ ι) : Nat := tally (fun _ th => th.steps) s.thread

theorem Thread.Ok.steps_le {glob : Int} {th : Thread} (h : th.Ok loops glob) :
    th.steps ≤ 4 * loops := by
  rcases th with ⟨j, pc⟩
  have hle : j ≤ loops := h.j_le
  have hlt : pc ≠ .outside → j < loops := h.j_lt
  cases pc with
  | outside => exact Nat.mul_le_mul_left 4 hle
  | locked | loaded | stored =>
    have := hlt (by simp)
    simp only [steps]
    omega

theorem Inv.steps_le (h : Inv L loops s) : s.steps ≤ 4 * (Fintype.card ι * loops) :=
  (tally_le_card_mul fun i => (h.ok i).steps_le).trans (Nat.mul_left_comm ..).le

theorem State.Done.steps_eq (h : s.Done loops) : s.steps = 4 * (Fintype.card ι * loops) := by
  simp [steps, tally, h _, Thread.steps, Nat.mul_left_comm]

theorem Inv.glob_of_done (h : Inv L loops s) (hdone : s.Done loops) :
    s.glob = Fintype.card ι * loops := by
  simp [h.glob, tally, hdone _, Thread.writes]

variable [DecidableEq ι]

/-- A step of a thread that writes nothing. -/
theorem Inv.update_of_writes {g : γ} {th : Thread} (h : Inv L loops s)
    (hg : Guarded L (fun k => (update s.thread i th k).inside) g) (hok : th.Ok loops s.glob)
    (hw : th.writes = (s.thread i).writes) : Inv L loops ⟨s.glob, g, update s.thread i th⟩ where
  guarded := hg
  ok := forall_update (p := fun _ (th : Thread) => th.Ok loops s.glob) hok h.ok
  glob := h.glob.trans (congrArg _ (tally_update_of_eq hw).symm)

/-- Nobody else has read the old value. -/
theorem Inv.store {j : Nat} {loc : Int} (h : Inv L loops s)
    (hmax : Fintype.card ι * loops < 2 ^ 31) (hi : s.thread i = ⟨j, .loaded loc⟩) :
    Inv L loops ⟨wrap32 (loc + 1), s.lock, update s.thread i ⟨j, .stored⟩⟩ := by
  have hin : (s.thread i).inside := by simp [Thread.inside, hi]
  have hj : j < loops := by simpa [hi] using (h.ok i).j_lt hin
  obtain rfl : loc = s.glob := (h.ok i).loc loc (by rw [hi])
  have hw := tally_update (fun _ (th : Thread) => th.writes) s.thread i ⟨j, .stored⟩
  simp only [hi, Thread.writes, reduceCtorEq, if_false, if_true] at hw
  have hle := tally_le_card_mul (w := fun _ (th : Thread) => th.writes) (n := loops)
    (forall_update (p := fun _ (th : Thread) => th.writes ≤ loops) (i := i) (a := ⟨j, .stored⟩)
      (by rw [Thread.writes, if_pos rfl]; exact hj) fun k => (h.ok k).writes_le)
  have hglob := h.glob
  simp only [Thread.writes] at hglob hle
  have hwrap : wrap32 (s.glob + 1) = s.glob + 1 := wrap_eq_self (by omega) (by omega)
  rw [hwrap]
  refine ⟨h.guarded.step (by simp [Thread.inside, hi]), fun k => ?_, ?_⟩
  · rcases eq_or_ne k i with rfl | hk
    · simpa using ⟨hj.le, fun _ => hj, fun _ h => by cases h⟩
    · dsimp only
      rw [update_of_ne hk]
      refine ⟨(h.ok k).j_le, (h.ok k).j_lt, fun loc hloc => absurd ?_ hk⟩
      exact h.guarded.eq_of_inside (i := k) (by simp [Thread.inside, hloc]) hin
  · simp only [Thread.writes]
    omega

theorem Inv.step (h : Inv L loops s) (hmax : Fintype.card ι * loops < 2 ^ 31)
    (hn : step L loops s i = some t) : Inv L loops t := by
  have hok := h.ok i
  obtain ⟨j, ⟨g, hi, hj, hg, rfl⟩ | ⟨hi, rfl⟩ | ⟨loc, hi, rfl⟩ | ⟨hi, rfl⟩⟩ := step_cases hn
  · exact h.update_of_writes (h.guarded.acquire hg (by simp [Thread.inside]))
      ⟨hj.le, fun _ => hj, fun _ h => by cases h⟩ (by simp [Thread.writes, hi])
  · rw [hi] at hok
    exact h.update_of_writes (h.guarded.step (by simp [Thread.inside, hi]))
      ⟨hok.j_le, fun _ => hok.j_lt (by simp [Thread.inside]), fun _ h => by cases h; rfl⟩
      (by simp [Thread.writes, hi])
  · exact h.store hmax hi
  · rw [hi] at hok
    exact h.update_of_writes
      (h.guarded.release (by simp [Thread.inside, hi]) (by simp [Thread.inside]))
      ⟨hok.j_lt (by simp [Thread.inside]), fun h => absurd rfl h, fun _ h => by cases h⟩
      (by simp [Thread.writes, hi])

theorem steps_of_step (hn : step L loops s i = some t) : t.steps = s.steps + 1 := by
  have hsteps (th : Thread) (hth : th.steps = (s.thread i).steps + 1) :
      tally (fun _ th => th.steps) (update s.thread i th) = s.steps + 1 := by
    have htally := tally_update (fun _ (th : Thread) => th.steps) s.thread i th
    rw [State.steps]
    omega
  obtain ⟨j, ⟨g, hi, -, -, rfl⟩ | ⟨hi, rfl⟩ | ⟨loc, hi, rfl⟩ | ⟨hi, rfl⟩⟩ := step_cases hn
  all_goals exact hsteps _ (by rw [hi]; rfl)

/-- Whoever is inside can move, and otherwise anybody who has not returned. -/
theorem Inv.done_or_step (h : Inv L loops s) :
    s.Done loops ∨ ∃ i t, Sync.step L loops s i = some t := by
  rcases h.guarded.acquire_or_inside with ⟨g, hg⟩ | ⟨i, hi⟩
  · refine or_iff_not_imp_left.mpr fun hdone => ?_
    obtain ⟨i, hi⟩ := not_forall.mp hdone
    rcases hth : s.thread i with ⟨j, pc⟩
    have hok := h.ok i
    rw [hth] at hok hi
    rcases eq_or_ne pc .outside with rfl | hpc
    · have hj : j < loops := lt_of_le_of_ne hok.j_le fun hj => hi (by rw [hj])
      exact ⟨i, by simp [Sync.step, hth, hj, hg]⟩
    · exact ⟨i, step_of_inside (by rw [Thread.inside, hth]; exact hpc)⟩
  · exact .inr ⟨i, step_of_inside hi⟩

/-- Every run can be continued to one and the same length, and there all threads have returned and
no increment is lost. -/
def CountsExactly (L : Lock γ) (ι : Type*) [Fintype ι] [DecidableEq ι] (loops : Nat) : Prop :=
  (machine L ι loops).EndsIn (.init L) (4 * (Fintype.card ι * loops)) fun s =>
    s.Done loops ∧ s.glob = Fintype.card ι * loops

theorem countsExactly (L : Lock γ) (hmax : Fintype.card ι * loops < 2 ^ 31) :
    CountsExactly L ι loops := by
  have hinit : 4 * (Fintype.card ι * loops) - (State.init L : State γ ι).steps =
      4 * (Fintype.card ι * loops) := by
    rw [show (State.init L : State γ ι).steps = 0 from tally_eq_zero fun _ => rfl, Nat.sub_zero]
  rw [CountsExactly, ← hinit]
  refine .of_rank (I := Inv L loops) (r := fun s => 4 * (Fintype.card ι * loops) - s.steps)
    (fun _ _ _ h hn => h.step hmax hn) (fun s i t h hn => ?_) (fun s h => ?_) inv_init
  · have hle := (h.step hmax hn).steps_le
    rw [steps_of_step hn] at hle ⊢
    omega
  · refine h.done_or_step.imp_left fun hdone => ⟨⟨hdone, h.glob_of_done hdone⟩, ?_⟩
    rw [hdone.steps_eq, Nat.sub_self]

end

theorem all_countExactly {loops : Nat} (hmax : 2 * loops < 2 ^ 31) :
    CountsExactly mtx (Fin 2) loops ∧ CountsExactly splock (Fin 2) loops ∧
      CountsExactly rwlock (Fin 2) loops ∧ CountsExactly sem (Fin 2) loops := by
  have hmax : Fintype.card (Fin 2) * loops < 2 ^ 31 := by simpa using hmax
  exact ⟨countsExactly _ hmax, countsExactly _ hmax, countsExactly _ hmax, countsExactly _ hmax⟩

theorem all_countExactly_default : CountsExactly mtx (Fin 2) 10000000 :=
  (all_countExactly (by simp)).1

end Sync

end Tlpi.ThreadIncr
