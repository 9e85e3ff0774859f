import Mathlib.Data.Fin.VecNotation
import Tlpi.Threads.ProdCondvar

/-!
# Runs of `prod_condvar`

The main thread lets the producers make some units, consumes them all, and then looks at `done`.
Such runs exist for any number of units up to the total, so the program meets its purpose only if
`totRequired` says the right thing after each of them.
-/

namespace Tlpi.ProdCondvar

open Function

variable {N : Nat} {args : Args N} {s t : State N}

/-- The producers are between two units, and the main thread has consumed nothing. -/
structure Ready (args : Args N) (k : Nat) (s : State N) : Prop where
  reachable : (machine args).Reachable State.init s
  main : s.main = .lock
  mtx : s.mtx = none
  avail : s.avail = k
  numConsumed : s.numConsumed = some 0
  idle : ∀ i, (s.thread i).pc = nextUnit (s.thread i).made (cnt args i)
  produced : s.produced = k

/-- The first `j` producers are created before any of them has made a unit. -/
theorem exists_created (args : Args N) (j : Nat) (hj : j ≤ N) :
    ∃ s, (machine args).Reachable State.init s ∧ s.main = .create j ∧ s.mtx = none ∧ s.avail = 0 ∧
      ∀ i, (s.thread i).made = 0 ∧
        ((i : Nat) < j → (s.thread i).pc = nextUnit 0 (cnt args i)) := by
  induction j with
  | zero => exact ⟨_, .refl, rfl, rfl, rfl, fun i => ⟨rfl, nofun⟩⟩
  | succ j ih =>
    obtain ⟨s, hs, hm, hmu, ha, hth⟩ := ih (by omega)
    have hlt : j < N := hj
    have hn : (machine args).next s .main =
        some { s.goto ⟨j, hlt⟩ (nextUnit (s.thread ⟨j, hlt⟩).made (cnt args ⟨j, hlt⟩)) with
          main := .create (j + 1)
          totRequired := wrap32 (s.totRequired + (args ⟨j, hlt⟩).toInt) } := by
      simp [machine, step, stepMain, hm, hlt]
    refine ⟨_, .step hs trivial hn, rfl, hmu, ha, fun i => ?_⟩
    rcases eq_or_ne i ⟨j, hlt⟩ with rfl | hi
    · simp [State.goto, (hth ⟨j, hlt⟩).1]
    · have hne : (i : Nat) ≠ j := fun h => hi (Fin.ext h)
      simp only [State.goto, update_of_ne hi]
      exact ⟨(hth i).1, fun h => (hth i).2 (by omega)⟩

theorem exists_ready_zero (args : Args N) : ∃ s, Ready args 0 s := by
  obtain ⟨s, hs, hm, hmu, ha, hth⟩ := exists_created args N le_rfl
  have hn : (machine args).next s .main =
      some { s with main := .lock, numConsumed := some 0, done := false } := by
    simp [machine, step, stepMain, hm]
  refine ⟨_, .step hs trivial hn, rfl, hmu, ha, rfl, fun i => ?_, ?_⟩
  · rw [(hth i).2 i.isLt, (hth i).1]
  · exact tally_eq_zero fun i => (hth i).1

/-- Some producer makes one more unit. -/
theorem Ready.produce {k : Nat} (h : Ready args k s) (hk : k < total args)
    (hP : total args < 2 ^ 31) : ∃ t, Ready args (k + 1) t := by
  obtain ⟨i, hi⟩ : ∃ i, (s.thread i).made < cnt args i := by
    by_contra hno
    push Not at hno
    have hle : total args ≤ s.produced := by
      unfold State.produced tally total
      exact Finset.sum_le_sum fun i _ => hno i
    have := h.produced
    omega
  have hpc : (s.thread i).pc = .lock := by rw [h.idle i, nextUnit, if_pos hi]
  have hwrap : wrap32 (s.avail + 1) = k + 1 := by
    rw [h.avail]
    exact wrap32_of_lt (by omega) (by omega)
  have hrun : (machine args).run s [.thread i, .thread i, .thread i, .thread i] =
      some { s with
        thread := update s.thread i
          ⟨nextUnit ((s.thread i).made + 1) (cnt args i), (s.thread i).made + 1⟩
        avail := k + 1 } := by
    simp [machine, step, stepThread, State.goto, hpc, h.main, h.mtx, MPc.ended, hwrap]
  refine ⟨_, h.reachable.of_run hrun, h.main, h.mtx, by simp, h.numConsumed, fun j => ?_, ?_⟩
  · rcases eq_or_ne j i with rfl | hj
    · simp
    · simpa [hj] using h.idle j
  · have hmade : tally (fun _ th => th.made) (update s.thread i
        ⟨nextUnit ((s.thread i).made + 1) (cnt args i), (s.thread i).made + 1⟩) +
        (s.thread i).made = tally (fun _ th => th.made) s.thread + ((s.thread i).made + 1) :=
      tally_update _ s.thread i _
    have hp := h.produced
    simp only [State.produced] at hp ⊢
    omega

theorem exists_ready (hP : total args < 2 ^ 31) {k : Nat} (hk : k ≤ total args) :
    ∃ s, Ready args k s := by
  induction k with
  | zero => exact exists_ready_zero args
  | succ k ih =>
    obtain ⟨s, hs⟩ := ih (by omega)
    exact hs.produce (by omega) hP

/-- The main thread consumes one unit. -/
theorem run_consume {a c : Int} (hm : s.main = .loop) (ha : s.avail = a + 1)
    (hc : s.numConsumed = some c) (ha0 : 0 ≤ a) (hc0 : 0 ≤ c) (hlt : c + (a + 1) < 2 ^ 31) :
    (machine args).run s [.main, .main, .main, .main] = some { s with
      avail := a
      numConsumed := some (c + 1)
      done := s.totRequired ≤ c + 1 } := by
  have hpos : 0 < a + 1 := by omega
  have hc' : wrap32 (c + 1) = c + 1 := wrap32_of_lt (by omega) (by omega)
  have ha' : wrap32 a = a := wrap32_of_lt ha0 (by omega)
  simp [machine, step, stepMain, hm, ha, hc, hpos, hc', ha']

/-- The main thread consumes the `a` units that are available. -/
theorem exists_consumed {a : Nat} {c : Int} (hs : (machine args).Reachable State.init s)
    (hm : s.main = .loop) (ha : s.avail = a) (hc : s.numConsumed = some c) (hc0 : 0 ≤ c)
    (hlt : c + a < 2 ^ 31) :
    (machine args).Reachable State.init { s with
      avail := 0
      numConsumed := some (c + a)
      done := if 0 < a then s.totRequired ≤ c + a else s.done } := by
  induction a generalizing s c with
  | zero =>
    obtain ⟨th, m, mtx, av, tot, nc, d⟩ := s
    simp only at ha hc
    subst ha hc
    simpa using hs
  | succ a ih =>
    have hrun : (machine args).run s [.main, .main, .main, .main] = _ :=
      run_consume hm (a := a) (by simpa using ha) hc (by omega) hc0 (by push_cast at hlt; omega)
    have hnext := ih (hs.of_run hrun) hm rfl rfl (by omega) (by push_cast at hlt; omega)
    have hsum : c + 1 + (a : Int) = c + ((a + 1 : Nat) : Int) := by
      push_cast
      omega
    simp only [hsum] at hnext
    convert hnext using 2
    rcases Nat.eq_zero_or_pos a with rfl | hpos
    · simp
    · simp [hpos]

theorem run_leave (hm : s.main = .loop) (ha : s.avail = 0) (hd : s.done) :
    (machine args).run s [.main, .main, .main] = some { s with main := .exited, mtx := none } := by
  simp [machine, step, stepMain, hm, ha, hd]

theorem run_wait (hm : s.main = .loop) (ha : s.avail = 0) (hd : s.done = false) :
    (machine args).run s [.main, .main, .main, .main, .main] =
      some { s with main := .waiting, mtx := none } := by
  simp [machine, step, stepMain, hm, ha, hd]

/-- After `k ≥ 1` units the main thread leaves its loop or waits, as `done` says. -/
theorem Ready.consume {k : Nat} (h : Ready args k s) (hP : total args < 2 ^ 31) (hk : 0 < k)
    (hkP : k ≤ total args) :
    ∃ t, (machine args).Reachable State.init t ∧ t.thread = s.thread ∧
      t.numConsumed = some (k : Int) ∧ t.main = if required args ≤ k then .exited else .waiting := by
  have htot : s.totRequired = required args :=
    (inv_of_reachable hP h.reachable).totRequired_eq (by simp [h.main, MPc.started])
  have hstart : (machine args).run s [.main, .main] =
      some { s with main := .loop, mtx := some .main } := by
    simp [machine, step, stepMain, h.main, h.mtx, h.avail, hk.ne']
  have hloop := exists_consumed (h.reachable.of_run hstart) rfl h.avail h.numConsumed le_rfl
    (by omega)
  simp only [hk, if_true, htot, zero_add] at hloop
  rcases le_or_gt (required args) k with hle | hgt
  · refine ⟨_, hloop.of_run (run_leave rfl rfl (decide_eq_true hle)), rfl, rfl, ?_⟩
    rw [if_pos hle]
  · refine ⟨_, hloop.of_run (run_wait rfl rfl (decide_eq_false hgt.not_ge)), rfl, rfl, ?_⟩
    rw [if_neg hgt.not_ge]

/-- With every unit made, all producers have returned. -/
theorem Ready.returned (h : Ready args (total args) s) (hP : total args < 2 ^ 31) (i : Fin N) :
    (s.thread i).pc = .returned := by
  have hinv := inv_of_reachable hP h.reachable
  have hle : ∀ i ∈ Finset.univ, (s.thread i).made ≤ cnt args i := fun i _ => (hinv.ok i).made_le
  have heq := (Finset.sum_eq_sum_iff_of_le hle).mp h.produced i (Finset.mem_univ i)
  rw [h.idle i, nextUnit, if_neg (by omega)]

theorem exists_waiting (hP : total args < 2 ^ 31) (h : (total args : Int) < max (required args) 1) :
    ∃ t, (machine args).Reachable State.init t ∧ ¬Consumes args t := by
  obtain ⟨s, hs⟩ := exists_ready hP (le_refl (total args))
  rcases Nat.eq_zero_or_pos (total args) with h0 | hpos
  · have hrun : (machine args).run s [.main, .main] = some { s with main := .waiting } := by
      have ha := hs.avail
      rw [h0] at ha
      simp [machine, step, stepMain, hs.main, hs.mtx, ha]
    exact ⟨_, hs.reachable.of_run hrun, fun hc => hc.awake ⟨rfl, hs.returned hP⟩⟩
  · obtain ⟨t, ht, hth, -, hm⟩ := hs.consume hP hpos le_rfl
    rw [if_neg (by omega)] at hm
    exact ⟨t, ht, fun hc => hc.awake ⟨hm, fun i => hth ▸ hs.returned hP i⟩⟩

theorem exists_exited (hP : total args < 2 ^ 31) (h : max (required args) 1 < total args) :
    ∃ t, (machine args).Reachable State.init t ∧ ¬Consumes args t := by
  have hk : ((max (required args) 1).toNat : Int) = max (required args) 1 :=
    Int.toNat_of_nonneg (by omega)
  obtain ⟨s, hs⟩ := exists_ready hP (k := (max (required args) 1).toNat) (by omega)
  obtain ⟨t, ht, -, hc, hm⟩ := hs.consume hP (by omega) (by omega)
  rw [if_pos (by omega)] at hm
  refine ⟨t, ht, fun hcons => ?_⟩
  have heq := hc.symm.trans (hcons.exited hm)
  rw [Option.some.injEq] at heq
  omega

/-- The program meets its purpose exactly if `totRequired`, or the one unit that the loop consumes
at least, is what the producers make. -/
theorem consumes_iff (args : Args (N + 1)) (hP : total args < 2 ^ 31) :
    (∀ s, (machine args).Reachable State.init s → Consumes args s) ↔
      max (required args) 1 = total args := by
  refine ⟨fun h => ?_, fun h s hs => (inv_of_reachable hP hs).consumes h⟩
  rcases lt_trichotomy (max (required args) 1) (total args : Int) with hlt | heq | hgt
  · obtain ⟨t, ht, hno⟩ := exists_exited hP hlt
    exact absurd (h t ht) hno
  · exact heq
  · obtain ⟨t, ht, hno⟩ := exists_waiting hP hgt
    exact absurd (h t ht) hno

theorem consumes_two_three : total ![2, 3] < 2 ^ 31 ∧
    ∀ s, (machine ![2, 3]).Reachable State.init s → Consumes ![2, 3] s :=
  ⟨by decide, (consumes_iff ![2, 3] (by decide)).mpr (by decide)⟩

/-- The argument 0: the only producer returns at once, and the main thread waits for ever. -/
theorem not_consumes_zero : ∃ s, (machine ![0]).Reachable State.init s ∧ ¬Consumes ![0] s :=
  Machine.Reachable.exists_of_run [.main, .main, .main, .main] .refl
    ⟨_, rfl, fun h => h.awake ⟨rfl, by decide⟩⟩

end Tlpi.ProdCondvar
