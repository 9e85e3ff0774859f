import Mathlib.Order.RelClasses
import Mathlib.Logic.Relation

/-!
# Labelled machines

A machine is a partial step function; the label of a step resolves every choice that the
machine itself leaves open (which process moves, what a system call returns). Runs are lists
of labels, so a concrete run can be evaluated. `ReachableBy` collects the states reached by
runs all of whose steps meet a condition on the state before the step and its label.
-/

namespace Tlpi

/-- A labelled machine: `next s a` is the state after the step `a` in `s`, or `none` when the
step is not enabled there. -/
structure Machine (σ ℓ : Type*) where
  next : σ → ℓ → Option σ

namespace Machine

variable {σ ℓ : Type*} {M : Machine σ ℓ}

/-- Execute a list of labels, all of which must be enabled in turn. -/
def run (M : Machine σ ℓ) : σ → List ℓ → Option σ
  | s, [] => some s
  | s, a :: as => (M.next s a).bind (M.run · as)

/-- The states reached from `s₀` by steps that all meet `ok`. -/
inductive ReachableBy (M : Machine σ ℓ) (ok : σ → ℓ → Prop) (s₀ : σ) : σ → Prop
  | refl : ReachableBy M ok s₀ s₀
  | step {s t a} : ReachableBy M ok s₀ s → ok s a → M.next s a = some t → ReachableBy M ok s₀ t

/-- Execute a list of labels, all of which must be enabled and meet `ok` in turn. -/
def runBy (M : Machine σ ℓ) (ok : σ → ℓ → Prop) [∀ s a, Decidable (ok s a)] :
    σ → List ℓ → Option σ
  | s, [] => some s
  | s, a :: as => if ok s a then (M.next s a).bind (M.runBy ok · as) else none

/-- `P` holds in every state that the run `as` of `s` goes through. -/
def Always (M : Machine σ ℓ) (P : σ → Prop) : σ → List ℓ → Prop
  | s, [] => P s
  | s, a :: as => P s ∧ ∀ t, M.next s a = some t → M.Always P t as

/-- The states reached from `s₀` by any steps. -/
abbrev Reachable (M : Machine σ ℓ) (s₀ : σ) : σ → Prop := M.ReachableBy (fun _ _ => True) s₀

theorem Reachable.self (M : Machine σ ℓ) (s : σ) : M.Reachable s s := .refl

@[simp] theorem run_nil (s : σ) : M.run s [] = some s := rfl

@[simp] theorem run_cons (s : σ) (a : ℓ) (as : List ℓ) :
    M.run s (a :: as) = (M.next s a).bind (M.run · as) := rfl

/-- The invariant rule: what holds initially and is kept by every step that meets `ok` holds in
every state reached by such steps. -/
theorem ReachableBy.invariant {ok : σ → ℓ → Prop} {s₀ s : σ} {P : σ → Prop}
    (h : M.ReachableBy ok s₀ s) (h0 : P s₀)
    (hstep : ∀ s a t, P s → ok s a → M.next s a = some t → P t) : P s := by
  induction h with
  | refl => exact h0
  | step _ hok hn ih => exact hstep _ _ _ ih hok hn

theorem ReachableBy.trans {ok : σ → ℓ → Prop} {s₀ s t : σ} (h₁ : M.ReachableBy ok s₀ s)
    (h₂ : M.ReachableBy ok s t) : M.ReachableBy ok s₀ t := by
  induction h₂ with
  | refl => exact h₁
  | step _ hok hn ih => exact .step ih hok hn

theorem ReachableBy.mono {ok ok' : σ → ℓ → Prop} {s₀ s : σ} (h : M.ReachableBy ok s₀ s)
    (hok : ∀ s a, ok s a → ok' s a) : M.ReachableBy ok' s₀ s := by
  induction h with
  | refl => exact .refl
  | step _ ha hn ih => exact .step ih (hok _ _ ha) hn

/-- A run of labels that evaluates to a state reaches it. -/
theorem Reachable.of_run {s₀ s t : σ} {as : List ℓ} (h : M.Reachable s₀ s)
    (hr : M.run s as = some t) : M.Reachable s₀ t := by
  induction as generalizing s with
  | nil => cases hr; exact h
  | cons a as ih =>
    obtain ⟨u, hu, hr⟩ := Option.bind_eq_some_iff.mp hr
    exact ih (.step h trivial hu) hr

/-- A run of labels that ends in a state with `P` reaches such a state. -/
theorem Reachable.exists_of_run {s₀ s : σ} {P : σ → Prop} (as : List ℓ) (h : M.Reachable s₀ s)
    (hr : ∃ t, M.run s as = some t ∧ P t) : ∃ t, M.Reachable s₀ t ∧ P t := by
  obtain ⟨t, hr, hP⟩ := hr
  exact ⟨t, h.of_run hr, hP⟩

/-- A run whose steps meet `ok` and that ends in a state with `P` reaches such a state. -/
theorem ReachableBy.exists_of_runBy {ok : σ → ℓ → Prop} [∀ s a, Decidable (ok s a)] {s₀ s : σ}
    {P : σ → Prop} (as : List ℓ) (h : M.ReachableBy ok s₀ s)
    (hr : ∃ t, M.runBy ok s as = some t ∧ P t) : ∃ t, M.ReachableBy ok s₀ t ∧ P t := by
  induction as generalizing s with
  | nil =>
    obtain ⟨t, ht, hP⟩ := hr
    cases ht
    exact ⟨s, h, hP⟩
  | cons a as ih =>
    obtain ⟨t, ht, hP⟩ := hr
    simp only [runBy, Option.ite_none_right_eq_some] at ht
    obtain ⟨hok, ht⟩ := ht
    obtain ⟨u, hu, ht⟩ := Option.bind_eq_some_iff.mp ht
    exact ih (.step h hok hu) ⟨t, ht, hP⟩

/-- Every run of `s` can be continued to `n` steps and not further, and then `P` holds. -/
def EndsIn (M : Machine σ ℓ) (s : σ) (n : Nat) (P : σ → Prop) : Prop :=
  ∀ as t, M.run s as = some t →
    as.length ≤ n ∧ (as.length < n → ∃ a u, M.next t a = some u) ∧ (as.length = n → P t)

/-- If every step takes one from `r`, then a run has as many steps as `r` goes down. -/
theorem rank_of_run {I : σ → Prop} {r : σ → Nat} (hI : ∀ s a t, I s → M.next s a = some t → I t)
    (hrank : ∀ s a t, I s → M.next s a = some t → r s = r t + 1) {s t : σ} {as : List ℓ}
    (hs : I s) (hr : M.run s as = some t) : I t ∧ r s = r t + as.length := by
  induction as generalizing s with
  | nil =>
    cases hr
    exact ⟨hs, rfl⟩
  | cons a as ih =>
    obtain ⟨u, hu, hr⟩ := Option.bind_eq_some_iff.mp hr
    obtain ⟨ht, hlen⟩ := ih (hI s a u hs hu) hr
    refine ⟨ht, ?_⟩
    rw [hrank s a u hs hu, hlen, List.length_cons]
    omega

/-- The progress rule: every step takes one from `r`, and a run gets stuck only where `P` holds and
`r` is zero. -/
theorem EndsIn.of_rank {I P : σ → Prop} {r : σ → Nat}
    (hI : ∀ s a t, I s → M.next s a = some t → I t)
    (hrank : ∀ s a t, I s → M.next s a = some t → r s = r t + 1)
    (hstuck : ∀ s, I s → (P s ∧ r s = 0) ∨ ∃ a t, M.next s a = some t) {s : σ} (hs : I s) :
    M.EndsIn s (r s) P := by
  intro as t hr
  obtain ⟨ht, hlen⟩ := rank_of_run hI hrank hs hr
  refine ⟨by omega, fun hlt => ?_, fun heq => ?_⟩
  · exact (hstuck t ht).resolve_left fun ⟨_, h0⟩ => by omega
  · rcases hstuck t ht with ⟨hP, -⟩ | ⟨a, u, hn⟩
    · exact hP
    · have := hrank t a u ht hn
      omega

/-- Every run of `s` has at most `n` steps, and where it cannot be continued `P` holds. -/
def EndsWithin (M : Machine σ ℓ) (s : σ) (n : Nat) (P : σ → Prop) : Prop :=
  ∀ as t, M.run s as = some t → as.length ≤ n ∧ ((∃ a u, M.next t a = some u) ∨ P t)

/-- The progress rule for steps that take different amounts from `r`. -/
theorem EndsWithin.of_rank {I P : σ → Prop} {r : σ → Nat}
    (hI : ∀ s a t, I s → M.next s a = some t → I t)
    (hrank : ∀ s a t, I s → M.next s a = some t → r t < r s)
    (hstuck : ∀ s, I s → (∃ a t, M.next s a = some t) ∨ P s) {s : σ} (hs : I s) :
    M.EndsWithin s (r s) P := by
  intro as t hr
  have hrun : I t ∧ r t + as.length ≤ r s := by
    induction as generalizing s with
    | nil =>
      cases hr
      exact ⟨hs, Nat.le_refl _⟩
    | cons a as ih =>
      obtain ⟨u, hu, hr⟩ := Option.bind_eq_some_iff.mp hr
      obtain ⟨ht, hle⟩ := ih (hI s a u hs hu) hr
      have := hrank s a u hs hu
      exact ⟨ht, by rw [List.length_cons]; omega⟩
  exact ⟨by omega, hstuck t hrun.1⟩

theorem Always.last {P : σ → Prop} {s t : σ} {as : List ℓ} (h : M.Always P s as)
    (hr : M.run s as = some t) : P t := by
  induction as generalizing s with
  | nil =>
    cases hr
    exact h
  | cons a as ih =>
    obtain ⟨u, hu, hr⟩ := Option.bind_eq_some_iff.mp hr
    exact ih (h.2 u hu) hr

/-- If the steps with a label in `bad` are exactly those that leave `P`, then `P` holds along a run
exactly if the run has no such step. -/
theorem always_iff {bad : ℓ → Prop} {I P : σ → Prop} (hIP : ∀ s, I s → P s)
    (hgood : ∀ s a t, I s → ¬bad a → M.next s a = some t → I t)
    (hbad : ∀ s a t, I s → bad a → M.next s a = some t → ¬P t) {s t : σ} {as : List ℓ} (hs : I s)
    (hr : M.run s as = some t) : M.Always P s as ↔ ∀ a ∈ as, ¬bad a := by
  induction as generalizing s with
  | nil => simp [Always, hIP s hs]
  | cons a as ih =>
    obtain ⟨u, hu, hr⟩ := Option.bind_eq_some_iff.mp hr
    rw [List.forall_mem_cons]
    refine ⟨fun h => ?_, fun h => ⟨hIP s hs, fun v hv => ?_⟩⟩
    · have ha : ¬bad a := fun ha => by
        have hP : P u := by
          cases as with
          | nil => exact h.2 u hu
          | cons b bs => exact (h.2 u hu).1
        exact hbad s a u hs ha hu hP
      exact ⟨ha, (ih (hgood s a u hs ha hu) hr).mp (h.2 u hu)⟩
    · obtain rfl := Option.some.inj (hu.symm.trans hv)
      exact (ih (hgood s a u hs h.1 hu) hr).mpr h.2

end Machine

end Tlpi
