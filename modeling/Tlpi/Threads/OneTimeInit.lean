import Tlpi.Lib.Lock
import Tlpi.Lib.Machine
import Tlpi.Lib.Monitor
import Tlpi.Lib.Tally

/-!
# One-time initialisation

`one_time_init` under any interleaving of its callers. The initialisation is a list of steps on the
data that the callers share, and between two of them the other threads may run.
-/

namespace Tlpi.OneTimeInit

open Function

/-- Where a thread is in `one_time_init`; `init n` is after `n` steps of `init`. -/
inductive Pc
  | outside
  | locked
  | init (n : Nat)
  | checked
  deriving DecidableEq

/-- A thread, with the number of its calls that have returned. -/
structure Thread where
  calls : Nat
  pc : Pc
  deriving DecidableEq

structure OnceStruct (γ : Type*) where
  mtx : γ
  called : Int

structure State (γ σ ι : Type*) where
  once : OnceStruct γ
  data : σ
  thread : ι → Thread

section

variable {γ σ ι : Type*}

/-- `ONCE_INITIALIZER`. -/
def OnceStruct.initializer (L : Lock γ) : OnceStruct γ := ⟨L.init, 0⟩

def State.start (L : Lock γ) (data : σ) : State γ σ ι :=
  ⟨.initializer L, data, fun _ => ⟨0, .outside⟩⟩

/-- What a whole call of `init` does. -/
def runInit (init : List (σ → σ)) (data : σ) : σ := init.foldl (fun v f => f v) data

variable [DecidableEq ι]

/-- Every thread calls `one_time_init` `calls` times. -/
def step (L : Lock γ) (init : List (σ → σ)) (calls : Nat) (s : State γ σ ι) (i : ι) :
    Option (State γ σ ι) :=
  match s.thread i with
  | ⟨j, .outside⟩ =>
    if j < calls then
      (L.acquire s.once.mtx).map fun g =>
        { s with once.mtx := g, thread := update s.thread i ⟨j, .locked⟩ }
    else none
  | ⟨j, .locked⟩ =>
    if s.once.called = 0 then some { s with thread := update s.thread i ⟨j, .init 0⟩ }
    else some { s with thread := update s.thread i ⟨j, .checked⟩ }
  | ⟨j, .init n⟩ =>
    match init[n]? with
    | some f => some { s with data := f s.data, thread := update s.thread i ⟨j, .init (n + 1)⟩ }
    | none => some { s with once.called := 1, thread := update s.thread i ⟨j, .checked⟩ }
  | ⟨j, .checked⟩ => some { s with
      once.mtx := L.release s.once.mtx
      thread := update s.thread i ⟨j + 1, .outside⟩ }

def machine (L : Lock γ) (init : List (σ → σ)) (ι : Type*) [DecidableEq ι] (calls : Nat) :
    Machine (State γ σ ι) ι :=
  ⟨step L init calls⟩

theorem step_cases {L : Lock γ} {init : List (σ → σ)} {calls : Nat} {s t : State γ σ ι} {i : ι}
    (hn : step L init calls s i = some t) : ∃ j,
      (∃ g, s.thread i = ⟨j, .outside⟩ ∧ j < calls ∧ L.acquire s.once.mtx = some g ∧
        t = ⟨⟨g, s.once.called⟩, s.data, update s.thread i ⟨j, .locked⟩⟩) ∨
      (s.thread i = ⟨j, .locked⟩ ∧ s.once.called = 0 ∧
        t = ⟨s.once, s.data, update s.thread i ⟨j, .init 0⟩⟩) ∨
      (s.thread i = ⟨j, .locked⟩ ∧ s.once.called ≠ 0 ∧
        t = ⟨s.once, s.data, update s.thread i ⟨j, .checked⟩⟩) ∨
      (∃ n f, s.thread i = ⟨j, .init n⟩ ∧ init[n]? = some f ∧
        t = ⟨s.once, f s.data, update s.thread i ⟨j, .init (n + 1)⟩⟩) ∨
      (∃ n, s.thread i = ⟨j, .init n⟩ ∧ init[n]? = none ∧
        t = ⟨⟨s.once.mtx, 1⟩, s.data, update s.thread i ⟨j, .checked⟩⟩) ∨
      (s.thread i = ⟨j, .checked⟩ ∧
        t = ⟨⟨L.release s.once.mtx, s.once.called⟩, s.data,
          update s.thread i ⟨j + 1, .outside⟩⟩) := by
  rw [step] at hn
  split at hn
  · next j hi =>
    simp only [Option.ite_none_right_eq_some, Option.map_eq_some_iff] at hn
    obtain ⟨hj, g, hg, rfl⟩ := hn
    exact ⟨j, .inl ⟨g, hi, hj, hg, rfl⟩⟩
  · next j hi =>
    split at hn
    · next hc => exact ⟨j, .inr (.inl ⟨hi, hc, (Option.some.inj hn).symm⟩)⟩
    · next hc => exact ⟨j, .inr (.inr (.inl ⟨hi, hc, (Option.some.inj hn).symm⟩))⟩
  · next j n hi =>
    split at hn
    · next f hf =>
      exact ⟨j, .inr (.inr (.inr (.inl ⟨n, f, hi, hf, (Option.some.inj hn).symm⟩)))⟩
    · next hf =>
      exact ⟨j, .inr (.inr (.inr (.inr (.inl ⟨n, hi, hf, (Option.some.inj hn).symm⟩))))⟩
  · next j hi => exact ⟨j, .inr (.inr (.inr (.inr (.inr ⟨hi, (Option.some.inj hn).symm⟩))))⟩

end

/-! ### The invariant -/

def Thread.inside (th : Thread) : Prop := th.pc ≠ .outside

/-- How far the initialisation is. While it runs, all other threads wait for their first call. -/
inductive Phase {γ σ ι : Type*} (init : List (σ → σ)) (data : σ) (s : State γ σ ι) : Prop
  | fresh (called : s.once.called = 0) (hdata : s.data = data)
      (hthread : ∀ i, s.thread i = ⟨0, .outside⟩ ∨ s.thread i = ⟨0, .locked⟩)
  | running (i : ι) (n : Nat) (called : s.once.called = 0) (hn : n ≤ init.length)
      (hi : s.thread i = ⟨0, .init n⟩) (hdata : s.data = runInit (init.take n) data)
      (hthread : ∀ k, k ≠ i → s.thread k = ⟨0, .outside⟩)
  | done (called : s.once.called = 1) (hdata : s.data = runInit init data)
      (hthread : ∀ i n, (s.thread i).pc ≠ .init n)

structure Inv {γ σ ι : Type*} (L : Lock γ) (init : List (σ → σ)) (data : σ) (calls : Nat)
    (s : State γ σ ι) : Prop where
  guarded : Guarded L (fun i => (s.thread i).inside) s.once.mtx
  calls_le : ∀ i, (s.thread i).calls ≤ calls ∧ ((s.thread i).inside → (s.thread i).calls < calls)
  phase : Phase init data s

section

variable {γ σ ι : Type*} {L : Lock γ} {init : List (σ → σ)} {data : σ} {calls : Nat}
  {s t : State γ σ ι} {i : ι}

theorem inv_start : Inv L init data calls (State.start L data : State γ σ ι) where
  guarded := .free L.free_init fun _ h => h rfl
  calls_le _ := ⟨Nat.zero_le _, fun h => absurd rfl h⟩
  phase := .fresh rfl rfl fun _ => .inl rfl

/-- Whoever has returned once finds the data initialised. -/
theorem Phase.of_returned (h : Phase init data s) (hi : 0 < (s.thread i).calls) :
    s.once.called = 1 ∧ s.data = runInit init data := by
  cases h with
  | fresh _ _ hthread => rcases hthread i with h | h <;> simp [h] at hi
  | running k n _ _ hk _ hthread =>
    rcases eq_or_ne i k with rfl | hne
    · simp [hk] at hi
    · simp [hthread i hne] at hi
  | done called hdata _ => exact ⟨called, hdata⟩

theorem runInit_take_succ {n : Nat} {f : σ → σ} (hf : init[n]? = some f) :
    runInit (init.take (n + 1)) data = f (runInit (init.take n) data) := by
  simp [runInit, List.take_add_one, hf]

/-- A thread that is inside, but not in `init`, does not run while the initialisation does. -/
theorem Inv.fresh_or_done (h : Inv L init data calls s) (hin : (s.thread i).inside)
    (hpc : ∀ n, (s.thread i).pc ≠ .init n) :
    (s.once.called = 0 ∧ s.data = data ∧ s.thread i = ⟨0, .locked⟩) ∨
    (s.once.called = 1 ∧ s.data = runInit init data ∧ ∀ i n, (s.thread i).pc ≠ .init n) := by
  cases h.phase with
  | fresh called hdata hthread =>
    refine .inl ⟨called, hdata, (hthread i).resolve_left fun h => hin (by rw [h])⟩
  | running k n _ _ hk _ _ =>
    obtain rfl := h.guarded.eq_of_inside (i := i) (j := k) hin (by simp [Thread.inside, hk])
    exact absurd (by rw [hk]) (hpc n)
  | done called hdata hthread => exact .inr ⟨called, hdata, hthread⟩

theorem Inv.outside_of_ne (h : Inv L init data calls s) (hin : (s.thread i).inside) {k : ι}
    (hk : k ≠ i) : (s.thread k).pc = .outside := by
  by_contra hpc
  exact hk (h.guarded.eq_of_inside hpc hin)

theorem Phase.last_step {j n : Nat} (h : Phase init data s) (hi : s.thread i = ⟨j, .init n⟩)
    (hf : init[n]? = none) : s.once.called = 0 ∧ n = init.length := by
  have hle : init.length ≤ n := List.getElem?_eq_none_iff.mp hf
  cases h with
  | fresh _ _ hall => rcases hall i with h | h <;> simp [hi] at h
  | running k m called hm hk _ hall =>
    rcases eq_or_ne i k with rfl | hne
    · obtain ⟨-, rfl⟩ : j = 0 ∧ n = m := by simpa [hi] using hk
      exact ⟨called, Nat.le_antisymm hm hle⟩
    · simp [hall i hne] at hi
  | done _ _ hall => exact absurd (by rw [hi]) (hall i n)

variable [DecidableEq ι]

theorem Phase.update_done {o : OnceStruct γ} {th : Thread} (called : o.called = 1)
    (hdata : s.data = runInit init data) (hall : ∀ i n, (s.thread i).pc ≠ .init n)
    (hth : ∀ n, th.pc ≠ .init n) : Phase init data ⟨o, s.data, update s.thread i th⟩ :=
  .done called hdata (forall_update (p := fun _ (th : Thread) => ∀ n, th.pc ≠ .init n) hth hall)

theorem Inv.acquire {g : γ} {j : Nat} (h : Inv L init data calls s)
    (hi : s.thread i = ⟨j, .outside⟩) (hg : L.acquire s.once.mtx = some g) :
    Phase init data ⟨⟨g, s.once.called⟩, s.data, update s.thread i ⟨j, .locked⟩⟩ := by
  cases h.phase with
  | fresh called hdata hall =>
    have hj : j = 0 := by rcases hall i with h | h <;> simp [hi] at h; exact h
    exact .fresh called hdata (forall_update
      (p := fun _ (th : Thread) => th = ⟨0, .outside⟩ ∨ th = ⟨0, .locked⟩) (.inr (by rw [hj])) hall)
  | running k n called hn hk hdata hall =>
    exact absurd (by simp [Thread.inside, hk]) (h.guarded.outside_of_acquire hg k)
  | done called hdata hall => exact .update_done called hdata hall (by simp)

/-- The first thread that finds `called` clear runs the initialisation. -/
theorem Inv.enter {j : Nat} (h : Inv L init data calls s) (hi : s.thread i = ⟨j, .locked⟩)
    (hc : s.once.called = 0) :
    Phase init data ⟨s.once, s.data, update s.thread i ⟨j, .init 0⟩⟩ := by
  have hin : (s.thread i).inside := by simp [Thread.inside, hi]
  cases h.phase with
  | fresh called hdata hall =>
    have hj : j = 0 := by rcases hall i with h | h <;> simp [hi] at h; exact h
    refine .running i 0 called (Nat.zero_le _) (by simp [hj]) hdata fun k hk => ?_
    dsimp only
    rw [update_of_ne hk]
    exact (hall k).resolve_right fun hlock => by simpa [hlock] using h.outside_of_ne hin hk
  | running k n called hn hk hdata hall =>
    obtain rfl := h.guarded.eq_of_inside (i := i) (j := k) hin (by simp [Thread.inside, hk])
    simp [hi] at hk
  | done called hdata hall => simp [hc] at called

theorem Phase.run {j n : Nat} {f : σ → σ} (h : Phase init data s) (hi : s.thread i = ⟨j, .init n⟩)
    (hf : init[n]? = some f) :
    Phase init data ⟨s.once, f s.data, update s.thread i ⟨j, .init (n + 1)⟩⟩ := by
  have hlt : n < init.length := (List.getElem?_eq_some_iff.mp hf).1
  cases h with
  | fresh _ _ hall => rcases hall i with h | h <;> simp [hi] at h
  | running k m called hm hk hdata hall =>
    rcases eq_or_ne i k with rfl | hne
    · obtain ⟨rfl, rfl⟩ : j = 0 ∧ n = m := by simpa [hi] using hk
      refine .running i (n + 1) called hlt (by simp) ?_ fun k hk => ?_
      · rw [runInit_take_succ hf, hdata]
      · simpa [hk] using hall k hk
    · simp [hall i hne] at hi
  | done _ _ hall => exact absurd (by rw [hi]) (hall i n)

theorem Phase.finish {j n : Nat} (h : Phase init data s) (hi : s.thread i = ⟨j, .init n⟩)
    (hf : init[n]? = none) :
    Phase init data ⟨⟨s.once.mtx, 1⟩, s.data, update s.thread i ⟨j, .checked⟩⟩ := by
  have hle : init.length ≤ n := List.getElem?_eq_none_iff.mp hf
  cases h with
  | fresh _ _ hall => rcases hall i with h | h <;> simp [hi] at h
  | running k m called hm hk hdata hall =>
    rcases eq_or_ne i k with rfl | hne
    · obtain ⟨rfl, rfl⟩ : j = 0 ∧ n = m := by simpa [hi] using hk
      refine .done rfl (by rw [hdata, List.take_of_length_le hle]) fun k m => ?_
      rcases eq_or_ne k i with rfl | hk
      · simp
      · simp [hk, hall k hk]
    · simp [hall i hne] at hi
  | done _ _ hall => exact absurd (by rw [hi]) (hall i n)

theorem Inv.step (h : Inv L init data calls s) (hn : step L init calls s i = some t) :
    Inv L init data calls t := by
  have hcalls (th : Thread) (hth : th.calls ≤ calls ∧ (th.inside → th.calls < calls)) :
      ∀ k, (update s.thread i th k).calls ≤ calls ∧
        ((update s.thread i th k).inside → (update s.thread i th k).calls < calls) :=
    forall_update (p := fun _ (th : Thread) => th.calls ≤ calls ∧ (th.inside → th.calls < calls))
      hth h.calls_le
  have hok := h.calls_le i
  obtain ⟨j, hcase⟩ := step_cases hn
  rcases hcase with ⟨g, hi, hj, hg, rfl⟩ | ⟨hi, hc, rfl⟩ | ⟨hi, hc, rfl⟩ | ⟨n, f, hi, hf, rfl⟩ |
    ⟨n, hi, hf, rfl⟩ | ⟨hi, rfl⟩
  · exact ⟨h.guarded.acquire hg (by simp [Thread.inside]), hcalls _ ⟨hj.le, fun _ => hj⟩,
      h.acquire hi hg⟩
  all_goals
    have hin : (s.thread i).inside := by simp [Thread.inside, hi]
    have hlt := hok.2 hin
    rw [hi] at hlt
  · exact ⟨h.guarded.step (by simp [Thread.inside, hi]), hcalls _ ⟨hlt.le, fun _ => hlt⟩,
      h.enter hi hc⟩
  · rcases h.fresh_or_done hin (by simp [hi]) with ⟨hc', -, -⟩ | ⟨called, hdata, hall⟩
    · exact absurd hc' hc
    · exact ⟨h.guarded.step (by simp [Thread.inside, hi]), hcalls _ ⟨hlt.le, fun _ => hlt⟩,
        .update_done called hdata hall (by simp)⟩
  · exact ⟨h.guarded.step (by simp [Thread.inside, hi]), hcalls _ ⟨hlt.le, fun _ => hlt⟩,
      h.phase.run hi hf⟩
  · exact ⟨h.guarded.step (by simp [Thread.inside, hi]), hcalls _ ⟨hlt.le, fun _ => hlt⟩,
      h.phase.finish hi hf⟩
  · rcases h.fresh_or_done hin (by simp [hi]) with ⟨-, -, hlock⟩ | ⟨called, hdata, hall⟩
    · simp [hi] at hlock
    · exact ⟨h.guarded.release hin (by simp [Thread.inside]),
        hcalls _ ⟨hlt, fun h => absurd rfl h⟩, .update_done called hdata hall (by simp)⟩

/-! ### Progress -/

/-- The steps that a thread has taken, but those of `init` when it has returned. -/
def Thread.steps : Thread → Nat
  | ⟨j, .outside⟩ => 3 * j
  | ⟨j, .locked⟩ => 3 * j + 1
  | ⟨j, .init n⟩ => 3 * j + 2 + n
  | ⟨j, .checked⟩ => 3 * j + 2

theorem step_of_inside (hi : (s.thread i).inside) :
    ∃ t, OneTimeInit.step L init calls s i = some t := by
  rcases hth : s.thread i with ⟨j, _ | _ | n | _⟩
  · simp [Thread.inside, hth] at hi
  · simp only [OneTimeInit.step, hth]
    split <;> simp
  · simp only [OneTimeInit.step, hth]
    split <;> simp
  · simp [OneTimeInit.step, hth]

/-- All threads have returned from all of their calls. -/
def State.Done (calls : Nat) (s : State γ σ ι) : Prop := ∀ i, s.thread i = ⟨calls, .outside⟩

theorem Inv.done_or_step (h : Inv L init data calls s) :
    s.Done calls ∨ ∃ i t, OneTimeInit.step L init calls s i = some t := by
  rcases h.guarded.acquire_or_inside with ⟨g, hg⟩ | ⟨i, hi⟩
  · refine or_iff_not_imp_left.mpr fun hdone => ?_
    obtain ⟨i, hi⟩ := not_forall.mp hdone
    rcases hth : s.thread i with ⟨j, pc⟩
    have hok := h.calls_le i
    rw [hth] at hok hi
    rcases eq_or_ne pc .outside with rfl | hpc
    · have hj : j < calls := lt_of_le_of_ne hok.1 fun hj => hi (by rw [hj])
      exact ⟨i, by simp [OneTimeInit.step, hth, hj, hg]⟩
    · exact ⟨i, step_of_inside (by rw [Thread.inside, hth]; exact hpc)⟩
  · exact .inr ⟨i, step_of_inside hi⟩

variable [Fintype ι]

def State.steps (init : List (σ → σ)) (s : State γ σ ι) : Nat :=
  tally (fun _ th => th.steps) s.thread + if s.once.called = 0 then 0 else init.length + 1

theorem steps_of_step (h : Inv L init data calls s)
    (hn : OneTimeInit.step L init calls s i = some t) : t.steps init = s.steps init + 1 := by
  have htally (th : Thread) := tally_update (fun _ (th : Thread) => th.steps) s.thread i th
  have hkeep (o : OnceStruct γ) (d : σ) (th : Thread) (hc : o.called = s.once.called)
      (hth : th.steps = (s.thread i).steps + 1) :
      State.steps init ⟨o, d, update s.thread i th⟩ = s.steps init + 1 := by
    have := htally th
    simp only [State.steps, hc]
    omega
  obtain ⟨j, hcase⟩ := step_cases hn
  rcases hcase with ⟨g, hi, -, -, rfl⟩ | ⟨hi, -, rfl⟩ | ⟨hi, -, rfl⟩ | ⟨n, f, hi, -, rfl⟩ |
    ⟨n, hi, hf, rfl⟩ | ⟨hi, rfl⟩
  case inr.inr.inr.inr.inl =>
    obtain ⟨called, rfl⟩ := h.phase.last_step hi hf
    have hth : (s.thread i).steps = Thread.steps ⟨j, .checked⟩ + init.length := by rw [hi]; rfl
    have := htally ⟨j, .checked⟩
    simp only [State.steps, called, if_true, Int.one_ne_zero, if_false]
    omega
  all_goals exact hkeep _ _ _ rfl (by rw [hi]; rfl)

omit [DecidableEq ι] in
theorem Inv.steps_le (h : Inv L init data calls s) [Nonempty ι] (hcalls : 0 < calls) :
    s.steps init ≤ 3 * (Fintype.card ι * calls) + init.length + 1 := by
  have hall (hpc : ∀ i n, (s.thread i).pc ≠ .init n) :
      tally (fun _ th => th.steps) s.thread ≤ Fintype.card ι * (3 * calls) := by
    refine tally_le_card_mul fun i => ?_
    have hok := h.calls_le i
    rcases hth : s.thread i with ⟨j, pc⟩
    rw [hth] at hok
    have hlt : pc ≠ .outside → j < calls := hok.2
    cases pc with
    | outside => exact Nat.mul_le_mul_left 3 hok.1
    | init n => exact absurd (by rw [hth]) (hpc i n)
    | locked | checked =>
      have := hlt (by simp)
      simp only [Thread.steps]
      omega
  cases h.phase with
  | fresh called hdata hthread =>
    have := hall fun i n => by rcases hthread i with h | h <;> simp [h]
    rw [State.steps, if_pos called, ← Nat.mul_left_comm]
    omega
  | running i n called hn hi hdata hthread =>
    have hsum : tally (fun _ th => th.steps) s.thread = 2 + n := by
      rw [tally, Finset.sum_eq_single i (fun k _ hk => by rw [hthread k hk]; rfl) (by simp), hi]
      simp [Thread.steps]
    have := Nat.mul_pos (Fintype.card_pos (α := ι)) hcalls
    rw [State.steps, if_pos called, hsum]
    omega
  | done called hdata hthread =>
    have := hall hthread
    rw [State.steps, if_neg (by simp [called]), ← Nat.mul_left_comm]
    omega

omit [DecidableEq ι] in
theorem Inv.of_done (h : Inv L init data calls s) [Nonempty ι] (hcalls : 0 < calls)
    (hdone : s.Done calls) : s.data = runInit init data ∧
      s.steps init = 3 * (Fintype.card ι * calls) + init.length + 1 := by
  obtain ⟨called, hdata⟩ := h.phase.of_returned (i := Classical.arbitrary ι) (by rwa [hdone])
  refine ⟨hdata, ?_⟩
  rw [State.steps, if_neg (by simp [called]), Nat.add_assoc]
  simp [tally, hdone _, Thread.steps, Nat.mul_left_comm]

/-- In every run the initialisation is done once, nobody returns before it is through, and all
threads return. -/
theorem initialised_once (L : Lock γ) (init : List (σ → σ)) (data : σ) [Nonempty ι]
    (hcalls : 0 < calls) :
    (machine L init ι calls).EndsIn (.start L data) (3 * (Fintype.card ι * calls) + init.length + 1)
      (fun s => s.Done calls ∧ s.data = runInit init data) ∧
    ∀ s, (machine L init ι calls).Reachable (.start L data) s →
      ∀ i, 0 < (s.thread i).calls → s.data = runInit init data := by
  have hinit : 3 * (Fintype.card ι * calls) + init.length + 1 -
      (State.start L data : State γ σ ι).steps init =
      3 * (Fintype.card ι * calls) + init.length + 1 := by
    rw [show (State.start L data : State γ σ ι).steps init = 0 from tally_eq_zero fun _ => rfl,
      Nat.sub_zero]
  refine ⟨?_, fun s hs i hi => ?_⟩
  · rw [← hinit]
    refine .of_rank (I := Inv L init data calls)
      (r := fun s => 3 * (Fintype.card ι * calls) + init.length + 1 - s.steps init)
      (fun _ _ _ h hn => h.step hn) (fun s i t h hn => ?_) (fun s h => ?_) inv_start
    · have hle := (h.step hn).steps_le hcalls
      rw [steps_of_step h hn] at hle ⊢
      omega
    · refine h.done_or_step.imp_left fun hdone => ?_
      obtain ⟨hdata, hsteps⟩ := h.of_done hcalls hdone
      exact ⟨⟨hdone, hdata⟩, by rw [hsteps, Nat.sub_self]⟩
  · have h : Inv L init data calls s := hs.invariant inv_start fun _ _ _ h _ hn => h.step hn
    exact (h.phase.of_returned hi).2

end

/-- The two threads of the test, and an initialisation that counts how often it is done. -/
theorem initialised_once_two : (machine .mutex [(· + 1)] (Fin 2) 2).EndsIn (.start .mutex 0) 14
    fun s => s.Done 2 ∧ s.data = 1 :=
  (initialised_once .mutex [(· + 1)] 0 (by simp)).1

end Tlpi.OneTimeInit
