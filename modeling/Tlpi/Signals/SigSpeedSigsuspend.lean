import Tlpi.Lib.Machine

/-!
# Signals to and fro (`ch20-signals/sig_speed_sigsuspend.c`)

A parent and its child take turns in sending `TESTSIG` to each other; the child starts. The signal
is blocked before `fork()`, except during `sigsuspend`, whose mask is empty. It is a standard
signal: pending or not, however often it was sent.
-/

namespace Tlpi.SigSpeedSigsuspend

/-- Where a process is in the body of its loop. -/
inductive Pc
  | kill
  /-- It is going to call `sigsuspend(&emptyMask)`. -/
  | sigsuspend
  /-- In that call. -/
  | suspended
  | exited
  deriving DecidableEq

structure Process where
  scnt : Nat
  pc : Pc
  pending : Bool
  /-- The calls of `handler`. -/
  caught : Nat
  /-- The signals to this process that it never catches. -/
  lost : Nat
  deriving DecidableEq

structure State where
  child : Process
  parent : Process
  /-- The signals to a process that is not the parent. -/
  stray : Nat
  deriving DecidableEq

inductive Who
  | child
  | parent
  deriving DecidableEq

namespace Process

/-- The test of the loop, whose body starts with `first`. -/
def test (numSigs : Nat) (first : Pc) (p : Process) : Process :=
  { p with pc := if p.scnt < numSigs then first else .exited }

/-- The end of the body: `scnt++` and the test. -/
def next (numSigs : Nat) (first : Pc) (p : Process) : Process :=
  test numSigs first { p with scnt := p.scnt + 1 }

/-- The process is sent the signal. A parent does not wait for its child, which therefore can be
sent signals when it has exited. -/
def signal (p : Process) : Process :=
  if p.pending ∨ p.pc = .exited then { p with lost := p.lost + 1 } else { p with pending := true }

def handler (p : Process) : Process := { p with pending := false, caught := p.caught + 1 }

/-- A pending signal is delivered unless it is blocked. -/
def Delivers (blocked : Bool) (p : Process) : Prop :=
  p.pending ∧ p.pc ≠ .exited ∧ (blocked → p.pc = .suspended)

instance (blocked : Bool) (p : Process) : Decidable (p.Delivers blocked) :=
  inferInstanceAs (Decidable (_ ∧ _ ∧ _))

end Process

variable (blocked : Bool) (numSigs : Nat)

/-- A step of the child. The parent of a process whose parent has exited is another one. -/
def stepChild (s : State) : Option State :=
  if s.child.Delivers blocked then
    some { s with
      child := if s.child.pc = .suspended then s.child.handler.next numSigs .kill
        else s.child.handler }
  else match s.child.pc with
    | .kill =>
      let child := { s.child with pc := .sigsuspend }
      if s.parent.pc = .exited then some { s with child, stray := s.stray + 1 }
      else some { s with child, parent := s.parent.signal }
    | .sigsuspend => some { s with child := { s.child with pc := .suspended } }
    | .suspended | .exited => none

/-- A step of the parent. -/
def stepParent (s : State) : Option State :=
  if s.parent.Delivers blocked then
    some { s with
      parent := if s.parent.pc = .suspended then { s.parent.handler with pc := .kill }
        else s.parent.handler }
  else match s.parent.pc with
    | .sigsuspend => some { s with parent := { s.parent with pc := .suspended } }
    | .kill =>
      some { s with child := s.child.signal, parent := s.parent.next numSigs .sigsuspend }
    | .suspended | .exited => none

def step (s : State) : Who → Option State
  | .child => stepChild blocked numSigs s
  | .parent => stepParent blocked numSigs s

def machine : Machine State Who := ⟨step blocked numSigs⟩

/-- After `fork()`, at the tests of both loops. -/
def State.init : State where
  child := .test numSigs .kill ⟨0, .exited, false, 0, 0⟩
  parent := .test numSigs .sigsuspend ⟨0, .exited, false, 0, 0⟩
  stray := 0

/-! ### With the signal blocked -/

def Pc.Waits (pc : Pc) : Prop := pc = .sigsuspend ∨ pc = .suspended

/-- The states of the two processes: it is always the turn of one of them, and a signal is pending
between the turns only. -/
inductive Inv (numSigs : Nat) : State → Prop
  | childSends {c ppc} : c < numSigs → ppc.Waits →
    Inv numSigs ⟨⟨c, .kill, false, c, 0⟩, ⟨c, ppc, false, c, 0⟩, 0⟩
  | toParent {c cpc ppc} : c < numSigs → cpc.Waits → ppc.Waits →
    Inv numSigs ⟨⟨c, cpc, false, c, 0⟩, ⟨c, ppc, true, c, 0⟩, 0⟩
  | parentSends {c cpc} : c < numSigs → cpc.Waits →
    Inv numSigs ⟨⟨c, cpc, false, c, 0⟩, ⟨c, .kill, false, c + 1, 0⟩, 0⟩
  | toChild {c cpc ppc} : c < numSigs → cpc.Waits →
    (if c + 1 < numSigs then ppc.Waits else ppc = .exited) →
    Inv numSigs ⟨⟨c, cpc, true, c, 0⟩, ⟨c + 1, ppc, false, c + 1, 0⟩, 0⟩
  | done :
    Inv numSigs ⟨⟨numSigs, .exited, false, numSigs, 0⟩, ⟨numSigs, .exited, false, numSigs, 0⟩, 0⟩

variable {blocked numSigs} {s t : State} {w : Who}

theorem inv_init (numSigs : Nat) : Inv numSigs (.init numSigs) := by
  rcases Nat.eq_zero_or_pos numSigs with rfl | hpos
  · exact .done
  · have h : Inv numSigs
        ⟨⟨0, .kill, false, 0, 0⟩, ⟨0, .sigsuspend, false, 0, 0⟩, 0⟩ := .childSends hpos (.inl rfl)
    simpa [State.init, Process.test, hpos] using h

/-- The steps that the child has still to take: three in each iteration. -/
def Process.childLeft (numSigs : Nat) (p : Process) : Nat :=
  3 * (numSigs - p.scnt) - match p.pc with
    | .kill | .exited => 0
    | .sigsuspend => 1
    | .suspended => 2

/-- The steps that the parent has still to take. -/
def Process.parentLeft (numSigs : Nat) (p : Process) : Nat :=
  3 * (numSigs - p.scnt) - match p.pc with
    | .sigsuspend | .exited => 0
    | .suspended => 1
    | .kill => 2

def State.left (numSigs : Nat) (s : State) : Nat :=
  s.child.childLeft numSigs + s.parent.parentLeft numSigs

theorem left_init (numSigs : Nat) : (State.init numSigs).left numSigs = 6 * numSigs := by
  rcases Nat.eq_zero_or_pos numSigs with rfl | hpos
  · rfl
  · simp only [State.left, State.init, Process.test, hpos, if_true, Process.childLeft,
      Process.parentLeft]
    omega

/-! The steps of the child, in the states `⟨scnt, pc, pending, caught, lost⟩`. -/

section

variable {n : Nat} {p : Process} {b : Bool} {c k l r : Nat}

theorem stepChild_kill (hp : p.pc ≠ .exited) :
    stepChild true n ⟨⟨c, .kill, b, k, l⟩, p, r⟩ =
      some ⟨⟨c, .sigsuspend, b, k, l⟩, p.signal, r⟩ := by
  simp [stepChild, Process.Delivers, hp]

theorem stepChild_sigsuspend :
    stepChild true n ⟨⟨c, .sigsuspend, b, k, l⟩, p, r⟩ =
      some ⟨⟨c, .suspended, b, k, l⟩, p, r⟩ := by
  simp [stepChild, Process.Delivers]

theorem stepChild_deliver :
    stepChild true n ⟨⟨c, .suspended, true, k, l⟩, p, r⟩ =
      some ⟨Process.next n .kill ⟨c, .suspended, false, k + 1, l⟩, p, r⟩ := by
  simp [stepChild, Process.Delivers, Process.handler]

theorem stepChild_suspended : stepChild true n ⟨⟨c, .suspended, false, k, l⟩, p, r⟩ = none := by
  simp [stepChild, Process.Delivers]

theorem stepChild_exited : stepChild true n ⟨⟨c, .exited, b, k, l⟩, p, r⟩ = none := by
  simp [stepChild, Process.Delivers]

/-! The steps of the parent. -/

theorem stepParent_kill :
    stepParent true n ⟨p, ⟨c, .kill, b, k, l⟩, r⟩ =
      some ⟨p.signal, Process.next n .sigsuspend ⟨c, .kill, b, k, l⟩, r⟩ := by
  simp [stepParent, Process.Delivers]

theorem stepParent_sigsuspend :
    stepParent true n ⟨p, ⟨c, .sigsuspend, b, k, l⟩, r⟩ =
      some ⟨p, ⟨c, .suspended, b, k, l⟩, r⟩ := by
  simp [stepParent, Process.Delivers]

theorem stepParent_deliver :
    stepParent true n ⟨p, ⟨c, .suspended, true, k, l⟩, r⟩ =
      some ⟨p, ⟨c, .kill, false, k + 1, l⟩, r⟩ := by
  simp [stepParent, Process.Delivers, Process.handler]

theorem stepParent_suspended : stepParent true n ⟨p, ⟨c, .suspended, false, k, l⟩, r⟩ = none := by
  simp [stepParent, Process.Delivers]

theorem stepParent_exited : stepParent true n ⟨p, ⟨c, .exited, b, k, l⟩, r⟩ = none := by
  simp [stepParent, Process.Delivers]

theorem signal_of_ne (hp : p.pc ≠ .exited) (hpend : p.pending = false) :
    p.signal = { p with pending := true } := by
  rw [Process.signal, if_neg]
  simp [hp, hpend]

theorem next_of_lt {first pc : Pc} (h : c + 1 < n) :
    Process.next n first ⟨c, pc, b, k, l⟩ = ⟨c + 1, first, b, k, l⟩ := by
  simp only [Process.next, Process.test, if_pos h]

theorem next_of_not_lt {first pc : Pc} (h : ¬c + 1 < n) :
    Process.next n first ⟨c, pc, b, k, l⟩ = ⟨c + 1, .exited, b, k, l⟩ := by
  simp only [Process.next, Process.test, if_neg h]

end

theorem Pc.Waits.ne_exited {pc : Pc} (h : pc.Waits) : pc ≠ .exited := by
  rcases h with rfl | rfl <;> decide

theorem Inv.stepChild (h : Inv numSigs s) (hn : stepChild true numSigs s = some t) :
    Inv numSigs t ∧ s.left numSigs = t.left numSigs + 1 := by
  simp only [State.left, Process.childLeft, Process.parentLeft]
  cases h with
  | @childSends c ppc hc hppc =>
    rw [stepChild_kill hppc.ne_exited, signal_of_ne hppc.ne_exited rfl] at hn
    cases hn
    exact ⟨.toParent hc (.inl rfl) hppc, by dsimp only; omega⟩
  | @toParent c cpc ppc hc hcpc hppc =>
    rcases hcpc with rfl | rfl
    · rw [stepChild_sigsuspend] at hn
      cases hn
      exact ⟨.toParent hc (.inr rfl) hppc, by dsimp only; omega⟩
    · rw [stepChild_suspended] at hn
      cases hn
  | @parentSends c cpc hc hcpc =>
    rcases hcpc with rfl | rfl
    · rw [stepChild_sigsuspend] at hn
      cases hn
      exact ⟨.parentSends hc (.inr rfl), by dsimp only; omega⟩
    · rw [stepChild_suspended] at hn
      cases hn
  | @toChild c cpc ppc hc hcpc hppc =>
    rcases hcpc with rfl | rfl
    · rw [stepChild_sigsuspend] at hn
      cases hn
      exact ⟨.toChild hc (.inr rfl) hppc, by dsimp only; omega⟩
    · rw [stepChild_deliver] at hn
      cases hn
      split at hppc
      · next hlt =>
        rw [next_of_lt hlt]
        exact ⟨.childSends hlt hppc, by dsimp only; omega⟩
      · next hge =>
        obtain rfl : c + 1 = numSigs := by omega
        cases hppc
        rw [next_of_not_lt hge]
        exact ⟨.done, by dsimp only; omega⟩
  | done =>
    rw [stepChild_exited] at hn
    cases hn

theorem Inv.stepParent (h : Inv numSigs s) (hn : stepParent true numSigs s = some t) :
    Inv numSigs t ∧ s.left numSigs = t.left numSigs + 1 := by
  simp only [State.left, Process.childLeft, Process.parentLeft]
  cases h with
  | @childSends c ppc hc hppc =>
    rcases hppc with rfl | rfl
    · rw [stepParent_sigsuspend] at hn
      cases hn
      exact ⟨.childSends hc (.inr rfl), by dsimp only; omega⟩
    · rw [stepParent_suspended] at hn
      cases hn
  | @toParent c cpc ppc hc hcpc hppc =>
    rcases hppc with rfl | rfl
    · rw [stepParent_sigsuspend] at hn
      cases hn
      exact ⟨.toParent hc hcpc (.inr rfl), by dsimp only; omega⟩
    · rw [stepParent_deliver] at hn
      cases hn
      exact ⟨.parentSends hc hcpc, by dsimp only; omega⟩
  | @parentSends c cpc hc hcpc =>
    rw [stepParent_kill, signal_of_ne hcpc.ne_exited rfl] at hn
    cases hn
    by_cases hlt : c + 1 < numSigs
    · rw [next_of_lt hlt]
      exact ⟨.toChild hc hcpc (by rw [if_pos hlt]; exact .inl rfl), by dsimp only; omega⟩
    · rw [next_of_not_lt hlt]
      exact ⟨.toChild hc hcpc (by rw [if_neg hlt]), by dsimp only; omega⟩
  | @toChild c cpc ppc hc hcpc hppc =>
    split at hppc
    · next hlt =>
      rcases hppc with rfl | rfl
      · rw [stepParent_sigsuspend] at hn
        cases hn
        exact ⟨.toChild hc hcpc (by rw [if_pos hlt]; exact .inr rfl), by dsimp only; omega⟩
      · rw [stepParent_suspended] at hn
        cases hn
    · cases hppc
      rw [stepParent_exited] at hn
      cases hn
  | done =>
    rw [stepParent_exited] at hn
    cases hn

theorem Inv.step (h : Inv numSigs s) (hn : step true numSigs s w = some t) :
    Inv numSigs t ∧ s.left numSigs = t.left numSigs + 1 := by
  cases w with
  | child => exact h.stepChild hn
  | parent => exact h.stepParent hn

/-- Both processes have caught all signals and have exited. -/
def State.Done (numSigs : Nat) (s : State) : Prop :=
  s.child.pc = .exited ∧ s.parent.pc = .exited ∧
    s.child.caught = numSigs ∧ s.parent.caught = numSigs

theorem Inv.progress (h : Inv numSigs s) :
    (s.Done numSigs ∧ s.left numSigs = 0) ∨
      ∃ w t, SigSpeedSigsuspend.step true numSigs s w = some t := by
  cases h with
  | childSends _ hppc => exact .inr ⟨.child, _, stepChild_kill hppc.ne_exited⟩
  | toParent _ _ hppc =>
    rcases hppc with rfl | rfl
    · exact .inr ⟨.parent, _, stepParent_sigsuspend (n := numSigs)⟩
    · exact .inr ⟨.parent, _, stepParent_deliver (n := numSigs)⟩
  | parentSends _ _ => exact .inr ⟨.parent, _, stepParent_kill (n := numSigs)⟩
  | toChild _ hcpc _ =>
    rcases hcpc with rfl | rfl
    · exact .inr ⟨.child, _, stepChild_sigsuspend (n := numSigs)⟩
    · exact .inr ⟨.child, _, stepChild_deliver (n := numSigs)⟩
  | done =>
    refine .inl ⟨⟨rfl, rfl, rfl, rfl⟩, ?_⟩
    simp [State.left, Process.childLeft, Process.parentLeft]

/-- The signals alternate, and none is lost or goes to another process. -/
def State.Alternates (s : State) : Prop :=
  s.child.lost = 0 ∧ s.parent.lost = 0 ∧ s.stray = 0 ∧
    s.child.caught ≤ s.parent.caught ∧ s.parent.caught ≤ s.child.caught + 1 ∧
    ¬(s.child.pc = .kill ∧ s.parent.pc = .kill)

theorem Inv.alternates (h : Inv numSigs s) : s.Alternates := by
  cases h with
  | childSends _ hppc => rcases hppc with rfl | rfl <;> simp [State.Alternates]
  | toParent _ hcpc _ => rcases hcpc with rfl | rfl <;> simp [State.Alternates]
  | parentSends _ hcpc => rcases hcpc with rfl | rfl <;> simp [State.Alternates]
  | toChild _ hcpc _ => rcases hcpc with rfl | rfl <;> simp [State.Alternates]
  | done => simp [State.Alternates]

/-! ### Without -/

/-- The parent catches the child's signal before it waits for it. -/
theorem deadlock (hpos : 0 < numSigs) : ∃ s, (machine false numSigs).Reachable (.init numSigs) s ∧
    s.child.pc = .suspended ∧ s.parent.pc = .suspended ∧
    ∀ w, step false numSigs s w = none := by
  refine Machine.Reachable.exists_of_run
    [.child, .parent, .parent, .child] (.self _ _)
    ⟨⟨⟨0, .suspended, false, 0, 0⟩, ⟨0, .suspended, false, 1, 0⟩, 0⟩, ?_, rfl, rfl, ?_⟩
  · simp [machine, step, stepChild, stepParent, State.init, Process.test, Process.Delivers,
      Process.signal, Process.handler, hpos]
  · intro w
    cases w <;> rfl

/-- In every interleaving the processes exchange all signals, since the signal is blocked before
`fork()`; otherwise both may wait for ever. -/
theorem signals_exchanged (numSigs : Nat) :
    (machine true numSigs).EndsIn (.init numSigs) (6 * numSigs) (State.Done numSigs) ∧
    (∀ s, (machine true numSigs).Reachable (.init numSigs) s → s.Alternates) ∧
    (0 < numSigs → ∃ s, (machine false numSigs).Reachable (.init numSigs) s ∧
      s.child.pc = .suspended ∧ s.parent.pc = .suspended ∧
      ∀ w, step false numSigs s w = none) := by
  refine ⟨?_, fun s hs => ?_, deadlock⟩
  · rw [← left_init numSigs]
    exact Machine.EndsIn.of_rank (I := Inv numSigs) (fun s a t hi hn => (hi.step hn).1)
      (fun s a t hi hn => (hi.step hn).2) (fun s hi => hi.progress) (inv_init numSigs)
  · exact (hs.invariant (inv_init numSigs) fun _ _ _ hi _ hn => (hi.step hn).1).alternates

end Tlpi.SigSpeedSigsuspend
