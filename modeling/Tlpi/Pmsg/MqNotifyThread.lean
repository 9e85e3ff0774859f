import Mathlib.Algebra.BigOperators.Group.Multiset.Basic
import Tlpi.Pmsg.MqNotify

/-!
# Message notification by threads (`pmsg/mq_notify_thread.c`, `pmsg/mq_notify_via_thread.c`)

A notification starts a new thread, which registers again and then drains the queue; earlier ones
may still be at work. `main` of the second program does the same as such a thread before it pauses,
so it needs no empty queue at the start; `main` of the first one registers only.
-/

namespace Tlpi.MqNotify.Thread

variable {α : Type*}

inductive Pc
  /-- `notifySetup(&mqd)` in `main` of `mq_notify_thread.c` -/
  | setup
  /-- `notifySetup(mqdp)` -/
  | notify
  /-- `mq_receive(mqd, msg, attr.mq_msgsize, NULL)` -/
  | receive
  deriving DecidableEq

structure State (α : Type*) where
  mq : Mq α
  /-- The threads at work; those that have returned and a `main` in `pause` do nothing any more. -/
  threads : Multiset Pc
  /-- Terminated by `errExit`. -/
  failed : Bool
  /-- How often `mq_notify` was called. -/
  calls : Nat

/-- `notifySetup`, after which the thread has `rest` to do. -/
def State.notifySetup (s : State α) (rest : Multiset Pc) : State α :=
  match s.mq.notify with
  | none => { s with failed := true, calls := s.calls + 1 }
  | some mq => { s with mq := mq, threads := rest + s.threads, calls := s.calls + 1 }

/-- The next step of a thread, beside the other ones. -/
def thread (s : State α) : Pc → State α
  | .setup => s.notifySetup 0
  | .notify => s.notifySetup {.receive}
  | .receive =>
    match s.mq.receive with
    | none => s
    | some mq => { s with mq := mq, threads := .receive ::ₘ s.threads }

/-- The thread for a notification is started, or a thread takes a step. -/
inductive Own
  | start
  | thread (pc : Pc)

def own (s : State α) : Own → Option (State α)
  | .start =>
    if s.failed then none
    else s.mq.deliver.map fun mq => { s with mq := mq, threads := .notify ::ₘ s.threads }
  | .thread pc =>
    if s.failed = false ∧ pc ∈ s.threads then
      some (thread { s with threads := s.threads.erase pc } pc)
    else none

inductive Label (α : Type*)
  | send (k : Nat) (m : α)
  | own (a : Own)

def step (maxmsg : Nat) (s : State α) : Label α → Option (State α)
  | .send k m => (s.mq.send maxmsg k m).map fun mq => { s with mq := mq }
  | .own a => own s a

def machine (α : Type*) (maxmsg : Nat) : Machine (State α) (Label α) := ⟨step maxmsg⟩

/-- The program alone. -/
def ownMachine (α : Type*) : Machine (State α) Own := ⟨own⟩

/-- `main` is about to register; another process may be registered. -/
def State.init (queue : List α) (reg : Option Unit) (pc : Pc) : State α :=
  ⟨⟨queue, reg.map fun _ => .other, false⟩, {pc}, false, 0⟩

/-- `mq_notify_thread.c` registers for the first time while the queue is empty. -/
def EmptyFirst (s : State α) : Label α → Prop
  | .own (.thread .setup) => s.mq.queue = []
  | _ => True

/-! ### The notification that is due -/

/-- The threads that have yet to register. -/
def State.registering (s : State α) : Nat := s.threads.countP (· ≠ .receive)

/-- One notification is due, or one thread is about to ask for it; while the registration is active
and a message is in the queue, a thread is draining it. The program starts with `first`. -/
structure Inv (first : Pc) (s : State α) : Prop where
  control : s.registering = 1 ∧ s.mq.Idle ∨ s.registering = 0 ∧ s.mq.Armed
  watched : s.mq.reg = some .self → s.mq.queue = [] ∨ .receive ∈ s.threads
  own : s.calls = 0 ∨ s.mq.reg ≠ some .other
  setup : .setup ∈ s.threads → first = .setup ∧ s.calls = 0

/-- Only the first registration of all can fail. -/
structure Good (first : Pc) (s : State α) : Prop where
  failed : s.failed = true → s.calls = 1
  inv : s.failed = false → Inv first s

section

variable {maxmsg k : Nat} {m : α} {s t : State α} {mq : Mq α} {rest : Multiset Pc} {first pc : Pc}

theorem own_thread (hn : own s (.thread pc) = some t) :
    ∃ rest, s.threads = pc ::ₘ rest ∧ s.failed = false ∧
      t = thread { s with threads := rest } pc := by
  simp only [own, Option.ite_none_right_eq_some, Option.some.injEq] at hn
  obtain ⟨⟨hfail, hpc⟩, rfl⟩ := hn
  exact ⟨s.threads.erase pc, (Multiset.cons_erase hpc).symm, hfail, rfl⟩

theorem own_start (hn : own s .start = some t) :
    s.failed = false ∧ s.mq.pending = true ∧
      t = { s with mq := { s.mq with pending := false }, threads := .notify ::ₘ s.threads } := by
  simp only [own, Option.ite_none_left_eq_some, Option.map_eq_some_iff] at hn
  obtain ⟨hfail, mq, hmq, rfl⟩ := hn
  obtain ⟨hp, rfl⟩ := Mq.deliver_eq_some hmq
  exact ⟨by simpa using hfail, hp, rfl⟩

theorem send_cases {q q' : Mq α} (hs : q.send maxmsg k m = some q') :
    q.queue = [] ∧ q'.reg = none ∨ q.queue ≠ [] ∧ q'.reg = q.reg := by
  simp only [Mq.send, Option.ite_none_right_eq_some, Option.some.injEq] at hs
  obtain ⟨-, rfl⟩ := hs
  cases hq : q.queue with
  | nil => exact .inl ⟨rfl, by simp⟩
  | cons m ms => exact .inr ⟨by simp, by simp⟩

theorem Inv.send (h : Inv first s) (hs : s.mq.send maxmsg k m = some mq) :
    Inv first { s with mq := mq } := by
  have hcontrol := h.control.imp (And.imp_right (·.send hs)) (And.imp_right (·.send hs))
  rcases send_cases hs with ⟨-, hr⟩ | ⟨hq, hr⟩
  · exact ⟨hcontrol, fun hreg => by simp [hr] at hreg, .inr (by simp [hr]), h.setup⟩
  · refine ⟨hcontrol, fun hreg => .inr ?_, h.own.imp_right (hr ▸ ·), h.setup⟩
    exact (h.watched (hr ▸ hreg)).resolve_left hq

theorem Inv.start (h : Inv first s) (hp : s.mq.pending = true) : Inv first
    { s with mq := { s.mq with pending := false }, threads := .notify ::ₘ s.threads } := by
  rcases h.control with ⟨-, hi⟩ | ⟨hreg, ⟨-, hp'⟩ | ⟨hr, -⟩⟩
  · simp [hi.2] at hp
  · simp [hp'] at hp
  · refine ⟨.inl ⟨?_, by simp [hr], rfl⟩, by simp [hr], .inr (by simp [hr]), fun hmem => ?_⟩
    · simpa [State.registering] using hreg
    · exact h.setup (by simpa using hmem)

theorem Inv.idle (h : Inv first s) (hs : s.threads = pc ::ₘ rest) (hpc : pc ≠ .receive) :
    rest.countP (· ≠ .receive) = 0 ∧ s.mq.Idle := by
  have hreg : s.registering = rest.countP (· ≠ .receive) + 1 := by
    rw [State.registering, hs]
    exact Multiset.countP_cons_of_pos _ hpc
  rcases h.control with ⟨h1, hi⟩ | ⟨h0, -⟩
  · exact ⟨by omega, hi⟩
  · omega

theorem Inv.notify_eq_none (h : Inv first s) (hi : s.mq.Idle) (hn : s.mq.notify = none) :
    s.calls = 0 := by
  refine h.own.resolve_right fun hother => ?_
  rw [Mq.notify_eq_none] at hn
  cases hr : s.mq.reg with
  | none => exact hn hr
  | some o =>
    cases o with
    | self => exact hi.1 hr
    | other => exact hother hr

/-- A registration arms the queue, or it is the first one of all and fails. -/
theorem Inv.notifySetup {todo : Multiset Pc} (h : Inv first s) (hfail : s.failed = false)
    (hs : s.threads = pc ::ₘ rest) (hpc : pc ≠ .receive) (htodo : todo.countP (· ≠ .receive) = 0)
    (hw : s.mq.queue = [] ∨ .receive ∈ todo) :
    Good first (State.notifySetup { s with threads := rest } todo) := by
  obtain ⟨hrest, hi⟩ := h.idle hs hpc
  rw [State.notifySetup]
  split
  · next hn => exact ⟨fun _ => by rw [h.notify_eq_none hi hn], by simp⟩
  · next mq hn =>
    obtain ⟨ha, hr, hq⟩ := hi.notify hn
    have hcount : (todo + rest).countP (· ≠ .receive) = 0 := by
      rw [Multiset.countP_add, htodo, hrest]
    refine ⟨by simp [hfail], fun _ =>
      ⟨.inr ⟨hcount, ha⟩, fun _ => ?_, .inr (by simp [hr]), fun hmem => ?_⟩⟩
    · exact hw.imp hq.trans (Multiset.mem_add.mpr <| .inl ·)
    · exact absurd (by simp) (Multiset.countP_eq_zero.mp hcount .setup hmem)

theorem Inv.receive (h : Inv first s) (hfail : s.failed = false)
    (hs : s.threads = .receive ::ₘ rest) :
    Good first (thread { s with threads := rest } .receive) := by
  have hreg : s.registering = rest.countP (· ≠ .receive) := by
    rw [State.registering, hs, Multiset.countP_cons_of_neg _ (by simp)]
  have hcontrol := h.control
  have hsetup := h.setup
  rw [hreg] at hcontrol
  simp only [hs, Multiset.mem_cons, reduceCtorEq, false_or] at hsetup
  rw [thread]
  split
  · next hn =>
    exact ⟨by simp [hfail], fun _ =>
      ⟨hcontrol, fun _ => .inl (Mq.receive_eq_none.mp hn), h.own, hsetup⟩⟩
  · next mq hn =>
    obtain ⟨hr, hp⟩ := Mq.receive_eq_some hn
    refine ⟨by simp [hfail], fun _ =>
      ⟨?_, fun _ => .inr (Multiset.mem_cons_self ..), ?_, by simpa using hsetup⟩⟩
    · rw [State.registering, Multiset.countP_cons_of_neg _ (by simp)]
      refine hcontrol.imp (And.imp_right fun hi => ?_) (And.imp_right (·.receive hn))
      rwa [Mq.Idle, hr, hp]
    · exact h.own.imp_right (hr ▸ ·)

theorem Good.own {a : Own} (h : Good first s)
    (hfirst : first = .setup → a = .thread .setup → s.mq.queue = []) (hn : own s a = some t) :
    Good first t := by
  cases a with
  | start =>
    obtain ⟨hfail, hp, rfl⟩ := own_start hn
    exact ⟨h.failed, fun _ => (h.inv hfail).start hp⟩
  | thread pc =>
    obtain ⟨rest, hs, hfail, rfl⟩ := own_thread hn
    have hinv := h.inv hfail
    cases pc with
    | setup =>
      have hsetup := hinv.setup (by simp [hs])
      exact hinv.notifySetup hfail hs (by simp) rfl (.inl (hfirst hsetup.1 rfl))
    | notify => exact hinv.notifySetup hfail hs (by simp) rfl (.inr (Multiset.mem_singleton_self _))
    | receive => exact hinv.receive hfail hs

theorem good_of_reachable {queue : List α} {reg : Option Unit} (hpc : first ≠ .receive)
    (h : (machine α maxmsg).ReachableBy (fun s a => first = .setup → EmptyFirst s a)
      (.init queue reg first) s) : Good first s := by
  have hinit : Good first (State.init queue reg first) := by
    refine ⟨by simp [State.init], fun _ =>
      ⟨.inl ⟨?_, ?_, rfl⟩, fun hr => ?_, .inl rfl, fun hmem => ?_⟩⟩
    · exact Multiset.countP_cons_of_pos 0 hpc
    · cases reg <;> simp [State.init]
    · cases reg <;> simp [State.init] at hr
    · exact ⟨(Multiset.mem_singleton.mp hmem).symm, rfl⟩
  refine h.invariant hinit fun s a t hs hok hn => ?_
  cases a with
  | send k m =>
    obtain ⟨mq, hmq, rfl⟩ := Option.map_eq_some_iff.mp hn
    exact ⟨hs.failed, fun hfail => (hs.inv hfail).send hmq⟩
  | own a =>
    refine hs.own (fun hfirst ha => ?_) hn
    subst ha
    exact hok hfirst

end

/-! ### The work that is left -/

def Pc.work : Pc → Nat
  | .setup | .receive => 1
  | .notify => 2

/-- The steps that the program takes if no further message arrives. -/
def State.work (s : State α) : Nat :=
  s.mq.queue.length + 3 * s.mq.pending.toNat + (s.threads.map Pc.work).sum

/-- Nothing is left to do, and the next message is going to be notified. -/
structure Quiet (s : State α) : Prop where
  threads : s.threads = 0
  queue : s.mq.queue = []
  reg : s.mq.reg = some .self
  pending : s.mq.pending = false

/-- The program has registered once, and runs. -/
structure Up (first : Pc) (s : State α) : Prop where
  inv : Inv first s
  failed : s.failed = false
  calls : 0 < s.calls

section

variable {s t : State α} {rest : Multiset Pc} {first pc : Pc} {a : Own}

theorem Up.exists_notify (h : Up first s) (hs : s.threads = pc ::ₘ rest) (hpc : pc ≠ .receive) :
    ∃ mq, s.mq.notify = some mq ∧ mq.queue = s.mq.queue ∧ mq.pending = s.mq.pending := by
  obtain ⟨-, hi⟩ := h.inv.idle hs hpc
  cases hn : s.mq.notify with
  | none => exact absurd (h.inv.notify_eq_none hi hn) h.calls.ne'
  | some mq =>
    simp only [Mq.notify, Option.ite_none_right_eq_some, Option.some.injEq] at hn
    obtain ⟨-, rfl⟩ := hn
    exact ⟨_, rfl, rfl, rfl⟩

theorem Up.setup_notMem (h : Up first s) : .setup ∉ s.threads := fun hmem =>
  h.calls.ne' (h.inv.setup hmem).2

/-- Every step does some of the work, and none makes the program fail. -/
theorem Up.work_of_own (h : Up first s) (hn : own s a = some t) :
    t.failed = false ∧ 0 < t.calls ∧ s.work = t.work + 1 := by
  cases a with
  | start =>
    obtain ⟨hfail, hp, rfl⟩ := own_start hn
    refine ⟨hfail, h.calls, ?_⟩
    simp only [State.work, hp, Multiset.map_cons, Multiset.sum_cons, Pc.work, Bool.toNat_true,
      Bool.toNat_false]
    omega
  | thread pc =>
    obtain ⟨rest, hs, hfail, rfl⟩ := own_thread hn
    cases pc with
    | setup => exact absurd (by simp [hs]) h.setup_notMem
    | notify =>
      obtain ⟨mq, hmq, hq, hp⟩ := h.exists_notify hs (by simp)
      simp only [thread, State.notifySetup, hmq]
      refine ⟨hfail, Nat.succ_pos _, ?_⟩
      simp only [State.work, hs, hq, hp, Multiset.map_add, Multiset.sum_add, Multiset.map_cons,
        Multiset.map_singleton, Multiset.sum_cons, Multiset.sum_singleton, Pc.work]
      omega
    | receive =>
      have hwork : s.work =
          s.mq.queue.length + 3 * s.mq.pending.toNat + (1 + (rest.map Pc.work).sum) := by
        simp [State.work, hs, Pc.work]
      rw [hwork, thread]
      cases hq : s.mq.queue with
      | nil =>
        simp only [Mq.receive, hq]
        refine ⟨hfail, h.calls, ?_⟩
        simp only [State.work, hq]
        omega
      | cons m ms =>
        simp only [Mq.receive, hq]
        refine ⟨hfail, h.calls, ?_⟩
        simp only [State.work, Multiset.map_cons, Multiset.sum_cons, Pc.work, List.length_cons]
        omega

theorem Up.own (h : Up first s) (hn : own s a = some t) : Up first t := by
  obtain ⟨hfail, hcalls, -⟩ := h.work_of_own hn
  have hgood : Good first t := by
    refine Good.own ⟨by simp [h.failed], fun _ => h.inv⟩ (fun _ ha => ?_) hn
    subst ha
    obtain ⟨rest, hs, -⟩ := own_thread hn
    exact absurd (by simp [hs]) h.setup_notMem
  exact ⟨hgood.inv hfail, hfail, hcalls⟩

theorem Inv.quiet (h : Inv first s) (hs : s.threads = 0) (hp : s.mq.pending = false) : Quiet s := by
  rcases h.control with ⟨h1, -⟩ | ⟨-, ⟨hr, -⟩ | ⟨-, hp'⟩⟩
  · simp [State.registering, hs] at h1
  · exact ⟨hs, (h.watched hr).resolve_right (by simp [hs]), hr, hp⟩
  · simp [hp] at hp'

theorem Up.quiet_or_own (h : Up first s) : Quiet s ∨ ∃ a t, Thread.own s a = some t := by
  rcases Multiset.empty_or_exists_mem s.threads with hs | ⟨pc, hpc⟩
  · cases hp : s.mq.pending with
    | true => exact .inr ⟨.start, by simp [Thread.own, h.failed, Mq.deliver, hp]⟩
    | false => exact .inl (h.inv.quiet hs hp)
  · exact .inr ⟨.thread pc, by simp [Thread.own, h.failed, hpc]⟩

theorem Quiet.work_eq_zero (h : Quiet s) : s.work = 0 := by
  simp [State.work, h.queue, h.pending, h.threads]

end

/-- Whatever the threads do once the senders have stopped, they end with an empty queue and an
active registration. -/
def Drains (s : State α) : Prop := (ownMachine α).EndsIn s s.work Quiet

/-- No message is forgotten while no thread is at work, and only the first registration can fail. -/
structure Safe (s : State α) : Prop where
  failed : s.failed = true → s.calls = 1
  quiet : s.failed = false → s.threads = 0 → s.mq.pending = false → Quiet s
  drains : s.failed = false → 0 < s.calls → Drains s

theorem Up.drains {s : State α} {first : Pc} (h : Up first s) : Drains s :=
  .of_rank (I := Up first) (fun _ _ _ h hn => h.own hn) (fun _ _ _ h hn => (h.work_of_own hn).2.2)
    (fun _ h => h.quiet_or_own.imp_left fun hquiet => ⟨hquiet, hquiet.work_eq_zero⟩) h

theorem Good.safe {s : State α} {first : Pc} (h : Good first s) : Safe s where
  failed := h.failed
  quiet hfail := (h.inv hfail).quiet
  drains hfail hcalls := Up.drains ⟨h.inv hfail, hfail, hcalls⟩

/-- `mq_notify_via_thread.c` whatever it finds in the queue, and `mq_notify_thread.c` if it
registers while the queue is empty. -/
theorem threads_drain (maxmsg : Nat) (queue : List α) (reg : Option Unit) :
    (∀ s, (machine α maxmsg).Reachable (.init queue reg .notify) s → Safe s) ∧
    ∀ s, (machine α maxmsg).ReachableBy EmptyFirst (.init queue reg .setup) s → Safe s :=
  ⟨fun _ h => (good_of_reachable (by simp) (h.mono fun _ _ _ hfirst => by cases hfirst)).safe,
    fun _ h => (good_of_reachable (by simp) (h.mono fun _ _ hok _ => hok)).safe⟩

/-- The second message starts a thread while the one for the first is still at work. -/
theorem threads_drain_two : ∃ s, (machine Nat 10).Reachable (.init [] none .notify) s ∧
    s.threads = {.notify, .receive, .receive} ∧ Safe s := by
  have hr : ∃ s, (machine Nat 10).Reachable (.init [] none .notify) s ∧
      s.threads = {.notify, .receive, .receive} :=
    Machine.Reachable.exists_of_run
      [.own (.thread .notify), .send 0 5, .own .start, .own (.thread .receive),
        .own (.thread .notify), .send 0 6, .own .start, .own (.thread .receive)] .refl
      ⟨_, rfl, by decide⟩
  obtain ⟨s, hs, hthreads⟩ := hr
  exact ⟨s, hs, hthreads, (threads_drain 10 [] none).1 s hs⟩

end Tlpi.MqNotify.Thread
