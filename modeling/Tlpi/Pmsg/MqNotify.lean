import Tlpi.Lib.Machine

/-!
# Message notification by signals (`pmsg/mq_notify_via_signal.c`, `pmsg/mq_notify_sig.c`)

A registration with `mq_notify` fires once, when a message arrives on the empty queue. Both programs
register again before they drain the queue. The first leaves the signal unblocked, and its handler
sets a flag; the second keeps it blocked except in `sigsuspend`. Senders and the delivery of the
signal come between any two steps of a program.
-/

namespace Tlpi.MqNotify

variable {α : Type*}

/-- Who is registered for notification. -/
inductive Owner
  | self
  | other
  deriving DecidableEq

/-- The queue, its registration, and whether the notification signal is pending for the program. -/
structure Mq (α : Type*) where
  queue : List α
  reg : Option Owner
  pending : Bool
  deriving DecidableEq

namespace Mq

/-- `mq_send` of `m`, which its priority puts after `k` messages; `none` while the queue is full. -/
def send (maxmsg : Nat) (q : Mq α) (k : Nat) (m : α) : Option (Mq α) :=
  if q.queue.length < maxmsg then
    some {
      queue := q.queue.take k ++ m :: q.queue.drop k
      reg := if q.queue.isEmpty then none else q.reg
      pending := q.pending || q.queue.isEmpty && q.reg == some .self }
  else none

/-- `mq_notify`: `none` when it fails with `EBUSY`. -/
def notify (q : Mq α) : Option (Mq α) :=
  if q.reg = none then some { q with reg := some .self } else none

/-- `mq_receive` on the nonblocking descriptor: `none` when it fails with `EAGAIN`. -/
def receive (q : Mq α) : Option (Mq α) :=
  match q.queue with
  | [] => none
  | _ :: ms => some { q with queue := ms }

/-- The signal is delivered. -/
def deliver (q : Mq α) : Option (Mq α) :=
  if q.pending then some { q with pending := false } else none

/-- No notification is due to the program. -/
def Idle (q : Mq α) : Prop := q.reg ≠ some .self ∧ q.pending = false

/-- One notification is due to the program: it is registered, or its signal is pending. -/
def Armed (q : Mq α) : Prop :=
  q.reg = some .self ∧ q.pending = false ∨ q.reg = none ∧ q.pending = true

/-- While the registration is active, no message is in the queue. -/
def Watched (q : Mq α) : Prop := q.reg = some .self → q.queue = []

section

variable {maxmsg k : Nat} {m : α} {q q' : Mq α}

theorem Idle.send (h : q.Idle) (hs : q.send maxmsg k m = some q') : q'.Idle := by
  simp only [Mq.send, Option.ite_none_right_eq_some, Option.some.injEq] at hs
  obtain ⟨-, rfl⟩ := hs
  refine ⟨?_, by simp [h.1, h.2]⟩
  cases hq : q.queue.isEmpty with
  | true => simp
  | false => simpa using h.1

theorem Armed.send (h : q.Armed) (hs : q.send maxmsg k m = some q') : q'.Armed := by
  simp only [Mq.send, Option.ite_none_right_eq_some, Option.some.injEq] at hs
  obtain ⟨-, rfl⟩ := hs
  cases hq : q.queue.isEmpty with
  | true =>
    rcases h with ⟨hr, hp⟩ | ⟨hr, hp⟩
    · exact .inr ⟨by simp, by simp [hr]⟩
    · exact .inr ⟨by simp, by simp [hp]⟩
  | false =>
    rcases h with ⟨hr, hp⟩ | ⟨hr, hp⟩
    · exact .inl ⟨by simp [hr], by simp [hp]⟩
    · exact .inr ⟨by simp [hr], by simp [hp]⟩

theorem Watched.send (h : q.Watched) (hs : q.send maxmsg k m = some q') : q'.Watched := by
  simp only [Mq.send, Option.ite_none_right_eq_some, Option.some.injEq] at hs
  obtain ⟨-, rfl⟩ := hs
  intro hr
  cases hq : q.queue.isEmpty with
  | true => simp [hq] at hr
  | false =>
    simp only [hq] at hr
    simp [h hr] at hq

theorem send_reg (hs : q.send maxmsg k m = some q') : q'.reg = q.reg ∨ q'.reg = none := by
  simp only [Mq.send, Option.ite_none_right_eq_some, Option.some.injEq] at hs
  obtain ⟨-, rfl⟩ := hs
  cases hq : q.queue.isEmpty with
  | true => exact .inr (by simp)
  | false => exact .inl (by simp)

theorem Idle.notify (h : q.Idle) (hn : q.notify = some q') :
    q'.Armed ∧ q'.reg = some .self ∧ q'.queue = q.queue := by
  simp only [Mq.notify, Option.ite_none_right_eq_some, Option.some.injEq] at hn
  obtain ⟨-, rfl⟩ := hn
  exact ⟨.inl ⟨rfl, h.2⟩, rfl, rfl⟩

theorem notify_eq_none : q.notify = none ↔ q.reg ≠ none := by
  simp [Mq.notify]

theorem receive_eq_none : q.receive = none ↔ q.queue = [] := by
  cases hq : q.queue <;> simp [Mq.receive, hq]

theorem receive_eq_some (hr : q.receive = some q') : q'.reg = q.reg ∧ q'.pending = q.pending := by
  cases hq : q.queue with
  | nil => simp [Mq.receive, hq] at hr
  | cons m ms =>
    simp only [Mq.receive, hq, Option.some.injEq] at hr
    cases hr
    exact ⟨rfl, rfl⟩

theorem deliver_eq_some (hd : q.deliver = some q') :
    q.pending = true ∧ q' = { q with pending := false } := by
  simp only [Mq.deliver, Option.ite_none_right_eq_some, Option.some.injEq] at hd
  exact ⟨hd.1, hd.2.symm⟩

theorem Armed.receive (h : q.Armed) (hr : q.receive = some q') : q'.Armed := by
  obtain ⟨h1, h2⟩ := receive_eq_some hr
  rwa [Armed, h1, h2]

theorem Armed.deliver (h : q.Armed) (hd : q.deliver = some q') : q'.Idle := by
  obtain ⟨hp, rfl⟩ := deliver_eq_some hd
  rcases h with ⟨-, hp'⟩ | ⟨hr, -⟩
  · simp [hp] at hp'
  · exact ⟨by simp [hr], rfl⟩

end

end Mq

/-- A message is sent, the signal is delivered, or the program takes its next step. -/
inductive Label (α : Type*)
  | send (k : Nat) (m : α)
  | deliver
  | main

/-! ## `mq_notify_via_signal` -/

namespace ViaSignal

inductive Pc
  /-- `if (gotSig)` -/
  | test
  /-- `gotSig = 0` -/
  | clear
  /-- `mq_notify(mqd, &sev)` -/
  | notify
  /-- `mq_receive(mqd, msg, attr.mq_msgsize, NULL)` -/
  | receive
  /-- `sleep(5)` -/
  | sleep
  /-- Terminated by `errExit`. -/
  | failed (msg : String)
  deriving DecidableEq

structure State (α : Type*) where
  mq : Mq α
  gotSig : Bool
  pc : Pc
  /-- How often `mq_notify` was called. -/
  calls : Nat

/-- One step of the program. -/
def main (s : State α) : Option (State α) :=
  match s.pc with
  | .test => some { s with pc := if s.gotSig then .clear else .sleep }
  | .clear => some { s with gotSig := false, pc := .notify }
  | .notify =>
    match s.mq.notify with
    | none => some { s with pc := .failed "mq_notify", calls := s.calls + 1 }
    | some mq => some { s with mq := mq, pc := .receive, calls := s.calls + 1 }
  | .receive =>
    match s.mq.receive with
    | none => some { s with pc := .sleep }
    | some mq => some { s with mq := mq }
  | .sleep => some { s with pc := .test }
  | .failed _ => none

/-- The handler runs as soon as the signal is delivered: `gotSig = 1`. -/
def step (maxmsg : Nat) (s : State α) : Label α → Option (State α)
  | .send k m => (s.mq.send maxmsg k m).map fun mq => { s with mq := mq }
  | .deliver => s.mq.deliver.map fun mq => { s with mq := mq, gotSig := true }
  | .main => main s

def machine (α : Type*) (maxmsg : Nat) : Machine (State α) (Label α) := ⟨step maxmsg⟩

/-- The program enters its loop; another process may be registered. -/
def State.init (queue : List α) (reg : Option Unit) : State α :=
  ⟨⟨queue, reg.map fun _ => .other, false⟩, true, .test, 0⟩

/-- The notification that is due, or the flag that the handler set. -/
def State.Due (s : State α) : Prop :=
  s.mq.Armed ∧ s.gotSig = false ∨ s.mq.Idle ∧ s.gotSig = true

/-- Where the notification is at each place of the loop. -/
def Control (s : State α) : Prop :=
  match s.pc with
  | .test | .sleep => s.Due ∧ s.mq.Watched
  | .clear => s.mq.Idle ∧ s.gotSig = true
  | .notify => s.mq.Idle ∧ s.gotSig = false
  | .receive => s.Due
  | .failed _ => True

/-- Only before the first call of `mq_notify` may another process be registered. -/
def Own (s : State α) : Prop :=
  s.calls = 0 ∨ s.mq.reg ≠ some .other ∨ s.pc = .failed "mq_notify"

structure Inv (s : State α) : Prop where
  control : Control s
  own : Own s

section

variable {maxmsg k : Nat} {m : α} {s t : State α} {mq : Mq α}

theorem State.Due.send (h : s.Due) (hs : s.mq.send maxmsg k m = some mq) :
    State.Due { s with mq := mq } := by
  rcases h with ⟨h, hg⟩ | ⟨h, hg⟩
  · exact .inl ⟨h.send hs, hg⟩
  · exact .inr ⟨h.send hs, hg⟩

theorem Inv.send (h : Inv s) (hs : s.mq.send maxmsg k m = some mq) : Inv { s with mq := mq } := by
  refine ⟨?_, ?_⟩
  · have hc := h.control
    unfold Control at hc ⊢
    cases hpc : s.pc with
    | test | sleep =>
      simp only [hpc] at hc ⊢
      exact ⟨hc.1.send hs, hc.2.send hs⟩
    | clear | notify =>
      simp only [hpc] at hc ⊢
      exact ⟨hc.1.send hs, hc.2⟩
    | receive =>
      simp only [hpc] at hc ⊢
      exact hc.send hs
    | failed msg => trivial
  · rcases h.own with h | h | h
    · exact .inl h
    · rcases Mq.send_reg hs with hr | hr
      · exact .inr (.inl (hr ▸ h))
      · exact .inr (.inl (by simp [hr]))
    · exact .inr (.inr h)

/-- A notification whose signal is pending becomes the flag. -/
theorem State.Due.deliver (h : s.Due) (hd : s.mq.deliver = some mq) :
    State.Due { s with mq := mq, gotSig := true } := by
  rcases h with ⟨h, -⟩ | ⟨h, -⟩
  · exact .inr ⟨h.deliver hd, rfl⟩
  · have hp := (Mq.deliver_eq_some hd).1
    simp [h.2] at hp

theorem Inv.deliver (h : Inv s) (hd : s.mq.deliver = some mq) :
    Inv { s with mq := mq, gotSig := true } := by
  obtain ⟨hp, rfl⟩ := Mq.deliver_eq_some hd
  refine ⟨?_, h.own⟩
  have hc := h.control
  unfold Control at hc ⊢
  cases hpc : s.pc with
  | test | sleep =>
    simp only [hpc] at hc ⊢
    exact ⟨hc.1.deliver hd, hc.2⟩
  | clear | notify =>
    simp only [hpc] at hc
    exact absurd (hp.symm.trans hc.1.2) (by simp)
  | receive =>
    simp only [hpc] at hc ⊢
    exact hc.deliver hd
  | failed msg => trivial

/-- A step of the program that leaves the queue and its registration alone. -/
theorem Inv.goto (h : Inv s) {gotSig : Bool} {pc : Pc} (hpc : s.pc ≠ .failed "mq_notify")
    (hc : Control { s with gotSig := gotSig, pc := pc }) :
    Inv { s with gotSig := gotSig, pc := pc } := by
  refine ⟨hc, ?_⟩
  rcases h.own with h | h | h
  · exact .inl h
  · exact .inr (.inl h)
  · exact absurd h hpc

theorem Inv.main (h : Inv s) (hs : main s = some t) : Inv t := by
  have hc := h.control
  cases hpc : s.pc with
  | test =>
    simp only [Control, hpc] at hc
    simp only [ViaSignal.main, hpc, Option.some.injEq] at hs
    subst hs
    refine h.goto (by simp [hpc]) ?_
    rcases hc.1 with ⟨ha, hg⟩ | ⟨hi, hg⟩
    · simp only [hg]
      exact ⟨.inl ⟨ha, rfl⟩, hc.2⟩
    · simp only [hg]
      exact ⟨hi, rfl⟩
  | clear =>
    simp only [Control, hpc] at hc
    simp only [ViaSignal.main, hpc, Option.some.injEq] at hs
    subst hs
    exact h.goto (by simp [hpc]) ⟨hc.1, rfl⟩
  | notify =>
    simp only [Control, hpc] at hc
    simp only [ViaSignal.main, hpc] at hs
    cases hn : s.mq.notify with
    | none =>
      simp only [hn, Option.some.injEq] at hs
      subst hs
      exact ⟨trivial, .inr (.inr rfl)⟩
    | some mq =>
      simp only [hn, Option.some.injEq] at hs
      subst hs
      obtain ⟨ha, hr, -⟩ := hc.1.notify hn
      exact ⟨.inl ⟨ha, hc.2⟩, .inr (.inl (by simp [hr]))⟩
  | receive =>
    simp only [Control, hpc] at hc
    simp only [ViaSignal.main, hpc] at hs
    cases hn : s.mq.receive with
    | none =>
      simp only [hn, Option.some.injEq] at hs
      subst hs
      exact h.goto (by simp [hpc]) ⟨hc, fun _ => Mq.receive_eq_none.mp hn⟩
    | some mq =>
      simp only [hn, Option.some.injEq] at hs
      subst hs
      obtain ⟨hr, hp⟩ := Mq.receive_eq_some hn
      refine ⟨?_, ?_⟩
      · simpa [Control, hpc, State.Due, Mq.Armed, Mq.Idle, hr, hp] using hc
      · simpa [Own, hr, hpc] using h.own
  | sleep =>
    simp only [Control, hpc] at hc
    simp only [ViaSignal.main, hpc, Option.some.injEq] at hs
    subst hs
    exact h.goto (by simp [hpc]) hc
  | failed msg => simp [ViaSignal.main, hpc] at hs

theorem inv_of_reachable {queue : List α} {reg : Option Unit}
    (h : (machine α maxmsg).Reachable (State.init queue reg) s) : Inv s := by
  refine h.invariant ⟨⟨.inr ⟨⟨?_, rfl⟩, rfl⟩, ?_⟩, .inl rfl⟩ fun s a t hi _ hs => ?_
  · cases reg <;> simp [State.init]
  · cases reg <;> simp [Mq.Watched, State.init]
  · cases a with
    | send k m =>
      obtain ⟨mq, hm, rfl⟩ := Option.map_eq_some_iff.mp hs
      exact hi.send hm
    | deliver =>
      obtain ⟨mq, hm, rfl⟩ := Option.map_eq_some_iff.mp hs
      exact hi.deliver hm
    | main => exact hi.main hs

end

/-- No message is forgotten while the program sleeps, and only its first registration can fail. -/
structure Safe (s : State α) : Prop where
  sleep : s.pc = .sleep →
    (s.mq.queue = [] ∧ s.mq.reg = some .self) ∨ s.mq.pending = true ∨ s.gotSig = true
  notify : s.pc = .notify → 0 < s.calls → s.mq.notify ≠ none

theorem Inv.safe {s : State α} (h : Inv s) : Safe s := by
  refine ⟨fun hpc => ?_, fun hpc hcalls hn => ?_⟩
  · have hc := h.control
    simp only [Control, hpc] at hc
    obtain ⟨⟨⟨hr, -⟩ | ⟨-, hp⟩, -⟩ | ⟨-, hg⟩, hw⟩ := hc
    · exact .inl ⟨hw hr, hr⟩
    · exact .inr (.inl hp)
    · exact .inr (.inr hg)
  · have hc := h.control
    simp only [Control, hpc] at hc
    rw [Mq.notify_eq_none] at hn
    rcases h.own with h0 | h0 | h0
    · omega
    · have hself := hc.1.1
      cases hr : s.mq.reg with
      | none => exact hn hr
      | some o => cases o <;> simp_all
    · simp [hpc] at h0

end ViaSignal

/-! ## `mq_notify_sig` -/

namespace Sig

inductive Pc
  /-- The first `mq_notify(mqd, &sev)`. -/
  | register
  /-- `sigsuspend(&emptyMask)` -/
  | suspend
  /-- `mq_notify(mqd, &sev)` in the loop. -/
  | notify
  /-- `mq_receive(mqd, buffer, attr.mq_msgsize, NULL)` -/
  | receive
  /-- Terminated by `errExit`. -/
  | failed (msg : String)
  deriving DecidableEq

structure State (α : Type*) where
  mq : Mq α
  pc : Pc

/-- `mq_notify`, after which the program goes on at `pc`. -/
def State.register (s : State α) (pc : Pc) : State α :=
  match s.mq.notify with
  | none => { s with pc := .failed "mq_notify" }
  | some mq => ⟨mq, pc⟩

/-- One step of the program; in `sigsuspend` it waits. -/
def main (s : State α) : Option (State α) :=
  match s.pc with
  | .register => some (s.register .suspend)
  | .suspend => none
  | .notify => some (s.register .receive)
  | .receive =>
    match s.mq.receive with
    | none => some { s with pc := .suspend }
    | some mq => some { s with mq := mq }
  | .failed _ => none

/-- The signal is blocked except in `sigsuspend`, which returns after the handler. -/
def step (maxmsg : Nat) (s : State α) : Label α → Option (State α)
  | .send k m => (s.mq.send maxmsg k m).map fun mq => { s with mq := mq }
  | .deliver => if s.pc = .suspend then s.mq.deliver.map fun mq => ⟨mq, .notify⟩ else none
  | .main => main s

def machine (α : Type*) (maxmsg : Nat) : Machine (State α) (Label α) := ⟨step maxmsg⟩

/-- The program is about to register for the first time. -/
def State.init (queue : List α) (reg : Option Unit) : State α :=
  ⟨⟨queue, reg.map fun _ => .other, false⟩, .register⟩

/-- The queue is empty at the first registration. -/
def EmptyFirst (s : State α) : Label α → Prop
  | .main => s.pc = .register → s.mq.queue = []
  | _ => True

/-- Where the notification is at each place of the program. -/
def Inv (s : State α) : Prop :=
  match s.pc with
  | .register => s.mq.Idle
  | .suspend => s.mq.Armed ∧ s.mq.Watched
  | .notify => s.mq.reg = none ∧ s.mq.pending = false
  | .receive => s.mq.Armed
  | .failed _ => True

/-- No message is forgotten while the program is suspended, and only its first registration can
fail. -/
structure Safe (s : State α) : Prop where
  suspend : s.pc = .suspend → (s.mq.queue = [] ∧ s.mq.reg = some .self) ∨ s.mq.pending = true
  notify : s.pc = .notify → s.mq.notify ≠ none

section

variable {maxmsg k : Nat} {m : α} {s t : State α} {mq : Mq α}

theorem Inv.send (h : Inv s) (hs : s.mq.send maxmsg k m = some mq) : Inv { s with mq := mq } := by
  unfold Inv at h ⊢
  cases hpc : s.pc with
  | register =>
    simp only [hpc] at h ⊢
    exact Mq.Idle.send h hs
  | suspend =>
    simp only [hpc] at h ⊢
    exact ⟨h.1.send hs, h.2.send hs⟩
  | notify =>
    simp only [hpc] at h ⊢
    have hi : s.mq.Idle := ⟨by simp [h.1], h.2⟩
    rcases Mq.send_reg hs with hr | hr
    · exact ⟨hr.trans h.1, (hi.send hs).2⟩
    · exact ⟨hr, (hi.send hs).2⟩
  | receive =>
    simp only [hpc] at h ⊢
    exact Mq.Armed.send h hs
  | failed msg => trivial

/-- A registration fails, or arms the queue and leaves its messages. -/
theorem inv_register {pc : Pc} (h : s.mq.Idle)
    (hpc : ∀ mq : Mq α, mq.Armed → mq.queue = s.mq.queue → Inv ⟨mq, pc⟩) : Inv (s.register pc) := by
  unfold State.register
  split
  · trivial
  · next mq hn =>
    obtain ⟨ha, -, hq⟩ := h.notify hn
    exact hpc mq ha hq

theorem Inv.main (h : Inv s) (hok : s.pc = .register → s.mq.queue = []) (hs : main s = some t) :
    Inv t := by
  cases hpc : s.pc with
  | register =>
    simp only [Inv, hpc] at h
    simp only [Sig.main, hpc, Option.some.injEq] at hs
    subst hs
    exact inv_register h fun mq ha hq => ⟨ha, fun _ => hq.trans (hok hpc)⟩
  | suspend => simp [Sig.main, hpc] at hs
  | notify =>
    simp only [Inv, hpc] at h
    simp only [Sig.main, hpc, Option.some.injEq] at hs
    subst hs
    exact inv_register ⟨by simp [h.1], h.2⟩ fun mq ha _ => ha
  | receive =>
    simp only [Inv, hpc] at h
    simp only [Sig.main, hpc] at hs
    cases hn : s.mq.receive with
    | none =>
      simp only [hn, Option.some.injEq] at hs
      subst hs
      exact ⟨h, fun _ => Mq.receive_eq_none.mp hn⟩
    | some mq =>
      simp only [hn, Option.some.injEq] at hs
      subst hs
      simpa [Inv, hpc] using Mq.Armed.receive h hn
  | failed msg => simp [Sig.main, hpc] at hs

theorem inv_of_reachable {queue : List α} {reg : Option Unit}
    (h : (machine α maxmsg).ReachableBy EmptyFirst (State.init queue reg) s) : Inv s := by
  refine h.invariant ⟨?_, rfl⟩ fun s a t hi hok hs => ?_
  · cases reg <;> simp [State.init]
  · cases a with
    | send k m =>
      obtain ⟨mq, hm, rfl⟩ := Option.map_eq_some_iff.mp hs
      exact hi.send hm
    | deliver =>
      simp only [machine, step, Option.ite_none_right_eq_some] at hs
      obtain ⟨hpc, hs⟩ := hs
      obtain ⟨mq, hm, rfl⟩ := Option.map_eq_some_iff.mp hs
      simp only [Inv, hpc] at hi
      obtain ⟨hp, rfl⟩ := Mq.deliver_eq_some hm
      rcases hi.1 with ⟨-, hp'⟩ | ⟨hr, -⟩
      · simp [hp] at hp'
      · exact ⟨hr, rfl⟩
    | main => exact hi.main hok hs

theorem Inv.safe (h : Inv s) : Safe s := by
  refine ⟨fun hpc => ?_, fun hpc hn => ?_⟩
  · simp only [Inv, hpc] at h
    obtain ⟨⟨hr, -⟩ | ⟨-, hp⟩, hw⟩ := h
    · exact .inl ⟨hw hr, hr⟩
    · exact .inr hp
  · simp only [Inv, hpc] at h
    exact Mq.notify_eq_none.mp hn h.1

end

end Sig

/-! ## Both programs -/

theorem no_message_forgotten (maxmsg : Nat) (queue : List α) (reg : Option Unit) :
    (∀ s, (ViaSignal.machine α maxmsg).Reachable (ViaSignal.State.init queue reg) s →
      ViaSignal.Safe s) ∧
    ∀ s, (Sig.machine α maxmsg).ReachableBy Sig.EmptyFirst (Sig.State.init queue reg) s →
      Sig.Safe s :=
  ⟨fun _ h => (ViaSignal.inv_of_reachable h).safe, fun _ h => (Sig.inv_of_reachable h).safe⟩

/-- In both programs a message arrives while the program waits. -/
theorem no_message_forgotten_late_sender :
    (∃ s, (ViaSignal.machine Nat 10).Reachable (.init [] none) s ∧ s.pc = .sleep ∧
      s.mq.queue = [5] ∧ ViaSignal.Safe s) ∧
    ∃ s, (Sig.machine Nat 10).ReachableBy Sig.EmptyFirst (.init [] none) s ∧ s.pc = .suspend ∧
      s.mq.queue = [5] ∧ Sig.Safe s := by
  obtain ⟨h₁, h₂⟩ := no_message_forgotten (α := Nat) 10 [] none
  have hr₁ : ∃ s, (ViaSignal.machine Nat 10).Reachable (.init [] none) s ∧ s.pc = .sleep ∧
      s.mq.queue = [5] :=
    Machine.Reachable.exists_of_run
      [.main, .main, .main, .main, .send 0 5] .refl ⟨_, rfl, rfl, rfl⟩
  have hr₂ : ∃ s, (Sig.machine Nat 10).ReachableBy Sig.EmptyFirst (.init [] none) s ∧
      s.pc = .suspend ∧ s.mq.queue = [5] :=
    ⟨_, .step (a := .send 0 5) (.step (a := .main) .refl (fun _ => rfl) rfl) trivial rfl, rfl, rfl⟩
  obtain ⟨s, hs, hpc, hq⟩ := hr₁
  obtain ⟨t, ht, hpc', hq'⟩ := hr₂
  exact ⟨⟨s, hs, hpc, hq, h₁ s hs⟩, t, ht, hpc', hq', h₂ t ht⟩

end Tlpi.MqNotify
