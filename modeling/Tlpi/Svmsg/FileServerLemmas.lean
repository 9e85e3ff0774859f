import Tlpi.Svmsg.FileServer

/-!
# The reply streams of the file server

Every request is in one place at a time: not yet sent, in the server's queue, with one child, or
answered (`Stage`). A step concerns one client; for the others nothing that their stage depends
on changes (`SameFor`, `Stage.congr`).
-/

namespace Tlpi.SvmsgFile

/-- The request that a child is serving. -/
def Child.req? : Child → Option RequestMsg
  | .unused | .exited => none
  | .opening req | .sendFailure req | .reading req _ | .sendData req _ _ | .sendEnd req => some req

/-- The client's private queue exists. -/
def Client.Live (c : Client) : Prop := c.pc ≠ .idle ∧ c.pc ≠ .exited

def dataMsg (chunk : List UInt8) : ResponseMsg := ⟨.data, chunk⟩

def endMsg : ResponseMsg := ⟨.eof, []⟩

def failureMsg : ResponseMsg := ⟨.failure, failureText⟩

/-- The text of a sequence of messages. -/
def payload (ms : List ResponseMsg) : List UInt8 := ms.flatMap (·.data)

/-- Data messages as `serveRequest` cuts them. -/
def AllData (ms : List ResponseMsg) : Prop :=
  ∀ m ∈ ms, m.mtype = .data ∧ 1 ≤ m.data.length ∧ m.data.length ≤ RESP_MSG_SIZE

/-- The messages received by `c` followed by those in its queue. -/
def State.msgs (s : State) (c : Client) : List ResponseMsg :=
  c.received ++ (s.queue c.clientId).getD []

/-- `ms` is a whole answer to a request for `path`. -/
def Complete (fs : Fs) (path : List UInt8) (ms : List ResponseMsg) : Prop :=
  match fs path with
  | none => ms = [failureMsg]
  | some file => ∃ ds, AllData ds ∧ payload ds = file.content ∧ ms = ds ++ [endMsg]

/-- `ms` is what a child has sent when it has got to where it is. -/
def Child.Sent (fs : Fs) (path : List UInt8) (ms : List ResponseMsg) : Child → Prop
  | .unused | .exited => False
  | .opening _ => ms = []
  | .sendFailure _ => fs path = none ∧ ms = []
  | .reading _ rest => ∃ file, fs path = some file ∧ AllData ms ∧ payload ms ++ rest = file.content
  | .sendData _ chunk rest => ∃ file, fs path = some file ∧ AllData (ms ++ [dataMsg chunk]) ∧
    payload ms ++ chunk ++ rest = file.content
  | .sendEnd _ => ∃ file, fs path = some file ∧ AllData ms ∧ payload ms = file.content

/-- Child `j` serves a request for a reply on queue `q`. -/
def State.Serves (s : State) (j q : Nat) : Prop := ∃ r, (s.child j).req? = some r ∧ r.clientId = q

/-- A request for a reply on queue `q` is in the server's queue. -/
def State.Waiting (s : State) (q : Nat) : Prop := ∃ r ∈ s.serverQ, r.clientId = q

def Client.req (c : Client) : RequestMsg := ⟨c.clientId, c.pathname⟩

namespace State

variable (s : State) (i j q : Nat) (c : Client) (ch : Child) (ms : Option (List ResponseMsg))

@[simp] theorem setClient_serverQ : (s.setClient i c).serverQ = s.serverQ := rfl
@[simp] theorem setClient_queue : (s.setClient i c).queue = s.queue := rfl
@[simp] theorem setClient_child : (s.setClient i c).child = s.child := rfl
@[simp] theorem setClient_self : (s.setClient i c).client i = c := Function.update_self ..
@[simp] theorem setClient_ne {k : Nat} (h : k ≠ i) : (s.setClient i c).client k = s.client k :=
  Function.update_of_ne h ..

@[simp] theorem setQueue_serverQ : (s.setQueue q ms).serverQ = s.serverQ := rfl
@[simp] theorem setQueue_client : (s.setQueue q ms).client = s.client := rfl
@[simp] theorem setQueue_child : (s.setQueue q ms).child = s.child := rfl
@[simp] theorem setQueue_self : (s.setQueue q ms).queue q = ms := Function.update_self ..
@[simp] theorem setQueue_ne {k : Nat} (h : k ≠ q) : (s.setQueue q ms).queue k = s.queue k :=
  Function.update_of_ne h ..

@[simp] theorem setChild_serverQ : (s.setChild j ch).serverQ = s.serverQ := rfl
@[simp] theorem setChild_client : (s.setChild j ch).client = s.client := rfl
@[simp] theorem setChild_queue : (s.setChild j ch).queue = s.queue := rfl
@[simp] theorem setChild_self : (s.setChild j ch).child j = ch := Function.update_self ..
@[simp] theorem setChild_ne {k : Nat} (h : k ≠ j) : (s.setChild j ch).child k = s.child k :=
  Function.update_of_ne h ..

@[simp] theorem waiting_setClient : (s.setClient i c).Waiting q ↔ s.Waiting q := .rfl
@[simp] theorem waiting_setQueue (q' : Nat) : (s.setQueue q' ms).Waiting q ↔ s.Waiting q := .rfl
@[simp] theorem waiting_setChild : (s.setChild j ch).Waiting q ↔ s.Waiting q := .rfl
@[simp] theorem serves_setClient : (s.setClient i c).Serves j q ↔ s.Serves j q := .rfl
@[simp] theorem serves_setQueue (q' : Nat) : (s.setQueue q' ms).Serves j q ↔ s.Serves j q := .rfl

end State

/-- Where the request of the live client `c` is. -/
inductive Stage (fs : Fs) (s : State) (c : Client) : Prop
  | unsent (hpc : c.pc = .request) (hw : ¬ s.Waiting c.clientId)
      (hs : ∀ j, ¬ s.Serves j c.clientId) (hm : s.msgs c = [])
  | queued (hpc : c.pc = .first) (hr : c.req ∈ s.serverQ)
      (hs : ∀ j, ¬ s.Serves j c.clientId) (hm : s.msgs c = [])
  | served (j : Nat) (hpc : c.pc = .first ∨ c.pc = .loop) (hw : ¬ s.Waiting c.clientId)
      (hr : (s.child j).req? = some c.req) (hm : (s.child j).Sent fs c.pathname (s.msgs c))
  | answered (hpc : c.pc ≠ .request) (hw : ¬ s.Waiting c.clientId)
      (hs : ∀ j, ¬ s.Serves j c.clientId) (hm : Complete fs c.pathname (s.msgs c))

/-- `s` and `t` do not differ in anything about queue `q`. -/
structure SameFor (q : Nat) (s t : State) : Prop where
  serverQ : ∀ r, r.clientId = q → (r ∈ t.serverQ ↔ r ∈ s.serverQ)
  child : ∀ j, s.Serves j q ∨ t.Serves j q → t.child j = s.child j
  queue : t.queue q = s.queue q

namespace SameFor

variable {q : Nat} {s t u : State}

theorem refl (q : Nat) (s : State) : SameFor q s s := ⟨fun _ _ => .rfl, fun _ _ => rfl, rfl⟩

theorem waiting (H : SameFor q s t) : t.Waiting q ↔ s.Waiting q :=
  ⟨fun ⟨r, hr, hq⟩ => ⟨r, (H.serverQ r hq).mp hr, hq⟩,
    fun ⟨r, hr, hq⟩ => ⟨r, (H.serverQ r hq).mpr hr, hq⟩⟩

theorem serves (H : SameFor q s t) (j : Nat) : t.Serves j q ↔ s.Serves j q := by
  constructor
  · intro h
    have := H.child j (.inr h)
    rwa [State.Serves, this] at h
  · intro h
    have := H.child j (.inl h)
    rwa [State.Serves, this]

theorem setClient (H : SameFor q s t) (i : Nat) (c : Client) : SameFor q s (t.setClient i c) :=
  ⟨H.serverQ, H.child, H.queue⟩

theorem setQueue (H : SameFor q s t) {q' : Nat} (h : q ≠ q') (ms : Option (List ResponseMsg)) :
    SameFor q s (t.setQueue q' ms) :=
  ⟨H.serverQ, H.child, by simpa [h] using H.queue⟩

/-- Changing a child that works for another queue before and after. -/
theorem setChild {j : Nat} (ch : Child) (hold : ¬ s.Serves j q)
    (hnew : ∀ r, ch.req? = some r → r.clientId ≠ q) : SameFor q s (s.setChild j ch) := by
  refine ⟨fun _ _ => .rfl, ?_, rfl⟩
  intro k hk
  by_cases hj : k = j
  · subst hj
    rcases hk with hk | ⟨r, hr, hq⟩
    · exact absurd hk hold
    · exact absurd hq (hnew r (by simpa using hr))
  · simp [hj]

end SameFor

theorem State.msgs_congr {s t : State} {c : Client} (h : t.queue c.clientId = s.queue c.clientId) :
    t.msgs c = s.msgs c := by
  simp only [State.msgs, h]

/-- The stage of a client survives steps that do not concern its queue. -/
theorem Stage.congr {fs : Fs} {s t : State} {c : Client} (H : SameFor c.clientId s t)
    (h : Stage fs s c) : Stage fs t c := by
  have hm := State.msgs_congr H.queue
  cases h with
  | unsent hpc hw hs hms =>
    exact .unsent hpc (H.waiting.not.mpr hw) (fun j => (H.serves j).not.mpr (hs j)) (hm.trans hms)
  | queued hpc hr hs hms =>
    exact .queued hpc ((H.serverQ _ rfl).mpr hr) (fun j => (H.serves j).not.mpr (hs j))
      (hm.trans hms)
  | served j hpc hw hr hms =>
    have hj : t.child j = s.child j := H.child j (.inl ⟨_, hr, rfl⟩)
    exact .served j hpc (H.waiting.not.mpr hw) (hj ▸ hr) (by rw [hj, hm]; exact hms)
  | answered hpc hw hs hms =>
    exact .answered hpc (H.waiting.not.mpr hw) (fun j => (H.serves j).not.mpr (hs j))
      (hm ▸ hms)

/-! ### The client's own bookkeeping -/

/-- What a client that has left its loop has received and printed. -/
inductive Client.Finished (c : Client) : Prop
  | failure (m : ResponseMsg) (hr : c.received = [m]) (hm : m.mtype = .failure)
      (ho : c.output = some (.failure m.data))
  | received (ds : List ResponseMsg) (m : ResponseMsg) (hr : c.received = ds ++ [m])
      (hds : ∀ d ∈ ds, d.mtype = .data) (hm : m.mtype ≠ .data) (h1 : ds = [] → m.mtype ≠ .failure)
      (ho : c.output = some (.received (wrap 64 (payload c.received).length)
        (wrap32 c.received.length)))

def Client.Ok (c : Client) : Prop :=
  match c.pc with
  | .idle | .request | .first => c.received = []
  | .loop => c.received ≠ [] ∧ (∀ m ∈ c.received, m.mtype = .data) ∧
    c.totBytes = wrap 64 (payload c.received).length ∧ c.numMsgs = wrap32 c.received.length
  | .exit | .exited => c.Finished

@[simp] theorem payload_append (ms ms' : List ResponseMsg) :
    payload (ms ++ ms') = payload ms ++ payload ms' := List.flatMap_append

@[simp] theorem payload_singleton (m : ResponseMsg) : payload [m] = m.data := by simp [payload]

@[simp] theorem payload_nil : payload [] = [] := rfl

@[simp] theorem Client.receive_clientId (c : Client) (m : ResponseMsg) :
    (c.receive m).clientId = c.clientId := by
  simp only [Client.receive]; split <;> [rfl; (split <;> rfl)]

@[simp] theorem Client.receive_pathname (c : Client) (m : ResponseMsg) :
    (c.receive m).pathname = c.pathname := by
  simp only [Client.receive]; split <;> [rfl; (split <;> rfl)]

@[simp] theorem Client.receive_received (c : Client) (m : ResponseMsg) :
    (c.receive m).received = c.received ++ [m] := by
  simp only [Client.receive]; split <;> [rfl; (split <;> rfl)]

/-- After a data message the client is in its loop, after any other it leaves. -/
theorem Client.receive_pc (c : Client) (m : ResponseMsg) :
    (c.receive m).pc = if m.mtype = .data then .loop else .exit := by
  simp only [Client.receive]
  split
  · rename_i h; simp [h.2]
  · split <;> rfl

theorem Client.Ok.receive {c : Client} {m : ResponseMsg} (H : c.Ok)
    (hpc : c.pc = .first ∨ c.pc = .loop) (hlen : m.data.length ≤ RESP_MSG_SIZE) :
    (c.receive m).Ok := by
  have hw : wrap 64 m.data.length = m.data.length :=
    wrap_natCast_iff.mpr (by simp only [RESP_MSG_SIZE] at hlen; omega)
  have hone : wrap 32 1 = 1 := by decide
  rcases hpc with hpc | hpc
  · simp only [Client.Ok, hpc] at H
    rw [Client.Ok, Client.receive_pc]
    by_cases hd : m.mtype = .data
    · simp [Client.receive, hpc, hd, H, hw, hone]
    by_cases hf : m.mtype = .failure
    · simp only [hd, if_false]
      exact .failure m (by simp [H]) hf (by simp [Client.receive, hpc, hf])
    · simp only [hd, if_false]
      refine .received [] m (by simp [H]) (by simp) hd (fun _ => hf) ?_
      simp [Client.receive, hpc, hd, hf, H, hw, hone]
  · simp only [Client.Ok, hpc] at H
    obtain ⟨hne, hall, htot, hnum⟩ := H
    rw [Client.Ok, Client.receive_pc]
    by_cases hd : m.mtype = .data
    · simp only [hd, if_true, Client.receive_received]
      refine ⟨by simp, ?_, ?_, ?_⟩
      · intro d hmem
        rcases List.mem_append.mp hmem with h | h
        · exact hall d h
        · rw [List.mem_singleton.mp h]; exact hd
      · simp [Client.receive, hpc, hd, htot, wrap_add_wrap]
      · simp [Client.receive, hpc, hd, hnum, wrap32, wrap_add_wrap]
    · simp only [hd, if_false]
      refine .received c.received m (by simp) hall hd (fun h => absurd h hne) ?_
      simp [Client.receive, hpc, hd, htot, hnum, wrap32, wrap_add_wrap]

/-! ### The invariant -/

structure Inv (fs : Fs) (s : State) : Prop where
  queues : ∀ i, (s.client i).Live → ∃ ms, s.queue (s.client i).clientId = some ms
  distinct : ∀ i i', (s.client i).Live → (s.client i').Live →
    (s.client i).clientId = (s.client i').clientId → i = i'
  requests : ∀ r ∈ s.serverQ, ∃ i, (s.client i).Live ∧ r = (s.client i).req
  children : ∀ j r, (s.child j).req? = some r → ∃ i, (s.client i).Live ∧ r = (s.client i).req
  once : (s.serverQ.map (·.clientId)).Nodup
  oneChild : ∀ j j' q, s.Serves j q → s.Serves j' q → j = j'
  stage : ∀ i, (s.client i).Live → Stage fs s (s.client i)
  ok : ∀ i, (s.client i).Ok
  finished : ∀ i, (s.client i).pc = .exited →
    Complete fs (s.client i).pathname (s.client i).received

theorem inv_initial (fs : Fs) : Inv fs initial where
  queues i h := absurd rfl h.1
  distinct i i' h := absurd rfl h.1
  requests r h := by simp [initial] at h
  children j r h := by simp [initial, Child.req?] at h
  once := List.nodup_nil
  oneChild j j' q h := by obtain ⟨r, hr, -⟩ := h; simp [initial, Child.req?] at hr
  stage i h := absurd rfl h.1
  ok i := rfl
  finished i h := by simp [initial] at h

section
variable {fs : Fs} {s t : State}

/-- The owner of a request that a child serves is at the stage that says so. -/
theorem Inv.served_stage (H : Inv fs s) {i j : Nat} (hl : (s.client i).Live)
    (hr : (s.child j).req? = some (s.client i).req) :
    ((s.client i).pc = .first ∨ (s.client i).pc = .loop) ∧ ¬ s.Waiting (s.client i).clientId ∧
      (s.child j).Sent fs (s.client i).pathname (s.msgs (s.client i)) := by
  have hserves : s.Serves j (s.client i).clientId := ⟨_, hr, rfl⟩
  cases H.stage i hl with
  | unsent _ _ hs => exact absurd hserves (hs j)
  | queued _ _ hs => exact absurd hserves (hs j)
  | served k hpc hw hr' hm =>
    obtain rfl := H.oneChild j k _ hserves ⟨_, hr', rfl⟩
    exact ⟨hpc, hw, hm⟩
  | answered _ _ hs => exact absurd hserves (hs j)

/-- A request in the server's queue has a client that waits for its first message. -/
theorem Inv.queued_stage (H : Inv fs s) {i : Nat} (hl : (s.client i).Live)
    (hr : (s.client i).req ∈ s.serverQ) :
    (s.client i).pc = .first ∧ (∀ j, ¬ s.Serves j (s.client i).clientId) ∧
      s.msgs (s.client i) = [] := by
  have hwait : s.Waiting (s.client i).clientId := ⟨_, hr, rfl⟩
  cases H.stage i hl with
  | unsent _ hw => exact absurd hwait hw
  | queued hpc _ hs hm => exact ⟨hpc, hs, hm⟩
  | served _ _ hw => exact absurd hwait hw
  | answered _ hw => exact absurd hwait hw

/-- The invariant after a step that concerns client `i` only: its own facts are given, the
stages of the others follow from `SameFor`. -/
theorem Inv.of_step (H : Inv fs s) (i : Nat)
    (hclient : ∀ i', i' ≠ i → t.client i' = s.client i')
    (hsame : ∀ i', i' ≠ i → (s.client i').Live → SameFor (s.client i').clientId s t)
    (hqueue : (t.client i).Live → ∃ ms, t.queue (t.client i).clientId = some ms)
    (hdistinct : ∀ i', i' ≠ i → (s.client i').Live → (t.client i).Live →
      (s.client i').clientId ≠ (t.client i).clientId)
    (hrequests : ∀ r ∈ t.serverQ, ∃ i', (t.client i').Live ∧ r = (t.client i').req)
    (hchildren : ∀ j r, (t.child j).req? = some r → ∃ i', (t.client i').Live ∧ r = (t.client i').req)
    (honce : (t.serverQ.map (·.clientId)).Nodup)
    (honeChild : ∀ j j' q, t.Serves j q → t.Serves j' q → j = j')
    (hstage : (t.client i).Live → Stage fs t (t.client i)) (hok : (t.client i).Ok)
    (hfinished : (t.client i).pc = .exited →
      Complete fs (t.client i).pathname (t.client i).received) : Inv fs t where
  queues i' hl := by
    by_cases h : i' = i
    · subst h; exact hqueue hl
    · rw [hclient i' h] at hl ⊢
      rw [(hsame i' h hl).queue]
      exact H.queues i' hl
  distinct k k' hk hk' he := by
    by_cases h : k = i <;> by_cases h' : k' = i
    · rw [h, h']
    · subst h
      rw [hclient k' h'] at hk' he
      exact absurd he.symm (hdistinct k' h' hk' hk)
    · subst h'
      rw [hclient k h] at hk he
      exact absurd he (hdistinct k h hk hk')
    · rw [hclient k h] at hk he
      rw [hclient k' h'] at hk' he
      exact H.distinct k k' hk hk' he
  requests := hrequests
  children := hchildren
  once := honce
  oneChild := honeChild
  stage i' hl := by
    by_cases h : i' = i
    · subst h; exact hstage hl
    · rw [hclient i' h] at hl ⊢
      exact (H.stage i' hl).congr (hsame i' h hl)
  ok i' := by
    by_cases h : i' = i
    · subst h; exact hok
    · rw [hclient i' h]; exact H.ok i'
  finished i' hx := by
    by_cases h : i' = i
    · subst h; exact hfinished hx
    · rw [hclient i' h] at hx ⊢; exact H.finished i' hx

/-- The clients' identifiers do not clash with one that no queue has. -/
theorem Inv.fresh (H : Inv fs s) {q : Nat} (hq : s.queue q = none) :
    (∀ i, (s.client i).Live → (s.client i).clientId ≠ q) ∧ ¬ s.Waiting q ∧
      ∀ j, ¬ s.Serves j q := by
  have hne : ∀ i, (s.client i).Live → (s.client i).clientId ≠ q := by
    rintro i hl rfl
    obtain ⟨ms, hms⟩ := H.queues i hl
    simp [hq] at hms
  refine ⟨hne, ?_, ?_⟩
  · rintro ⟨r, hr, rfl⟩
    obtain ⟨i, hl, rfl⟩ := H.requests r hr
    exact hne i hl rfl
  · rintro j ⟨r, hr, rfl⟩
    obtain ⟨i, hl, rfl⟩ := H.children j r hr
    exact hne i hl rfl

theorem inv_create {i q : Nat} {path : List UInt8} (H : Inv fs s)
    (h : create s i q path = some t) : Inv fs t := by
  simp only [create, Option.ite_none_right_eq_some, Option.some.injEq] at h
  obtain ⟨⟨hpc, hq, -⟩, rfl⟩ := h
  obtain ⟨hne, hw, hs⟩ := H.fresh hq
  have hrec : (s.client i).received = [] := by simpa [Client.Ok, hpc] using H.ok i
  have hidle : ¬ (s.client i).Live := fun hl => hl.1 hpc
  have hlive : ∀ i', (s.client i').Live → i' ≠ i := by rintro i' hl rfl; exact hidle hl
  refine H.of_step i ?_ ?_ ?_ ?_ ?_ ?_ H.once H.oneChild ?_ ?_ ?_
  · intro i' h'; simp [h']
  · intro i' _ hl
    exact ((SameFor.refl _ s).setQueue (hne i' hl) _).setClient i _
  · intro _; simp
  · intro i' _ hl _; simpa using hne i' hl
  · intro r hr
    obtain ⟨i', hl, rfl⟩ := H.requests r hr
    exact ⟨i', by simpa [hlive i' hl] using hl, by simp [hlive i' hl]⟩
  · intro j r hr
    obtain ⟨i', hl, rfl⟩ := H.children j r hr
    exact ⟨i', by simpa [hlive i' hl] using hl, by simp [hlive i' hl]⟩
  · intro _
    refine .unsent ?_ ?_ ?_ ?_ <;> simp [hw, hs, State.msgs, hrec]
  · simp [Client.Ok, hrec]
  · simp

theorem inv_request {i : Nat} (H : Inv fs s) (h : request s i = some t) : Inv fs t := by
  simp only [request, Option.ite_none_right_eq_some, Option.some.injEq] at h
  obtain ⟨hpc, rfl⟩ := h
  have hl : (s.client i).Live := by simp [Client.Live, hpc]
  have hrec : (s.client i).received = [] := by simpa [Client.Ok, hpc] using H.ok i
  obtain ⟨hw, hs, hm⟩ : ¬ s.Waiting (s.client i).clientId ∧
      (∀ j, ¬ s.Serves j (s.client i).clientId) ∧ s.msgs (s.client i) = [] := by
    cases H.stage i hl with
    | unsent _ hw hs hm => exact ⟨hw, hs, hm⟩
    | queued hpc' => simp [hpc] at hpc'
    | served _ hpc' => simp [hpc] at hpc'
    | answered hpc' => exact absurd hpc hpc'
  have hown : ∀ i', (s.client i').Live → ∃ k, ((s.setClient i
      { s.client i with pc := .first }).client k).Live ∧
      (s.client i').req = ((s.setClient i { s.client i with pc := .first }).client k).req := by
    intro i' hl'
    by_cases h' : i' = i
    · subst h'; exact ⟨i', by simp [Client.Live], by simp [Client.req]⟩
    · exact ⟨i', by simpa [h'] using hl', by simp [h']⟩
  refine H.of_step i ?_ ?_ ?_ ?_ ?_ ?_ ?_ H.oneChild ?_ ?_ ?_
  · intro i' h'; simp [h']
  · intro i' h' hl'
    refine ⟨fun r hr => ?_, fun _ _ => rfl, rfl⟩
    have hne : r ≠ ⟨(s.client i).clientId, (s.client i).pathname⟩ := by
      rintro rfl
      exact h' (H.distinct i' i hl' hl hr.symm)
    simp [hne]
  · intro _; simpa using H.queues i hl
  · intro i' h' hl' _ he
    exact h' (H.distinct i' i hl' hl (by simpa using he))
  · intro r hr
    rcases List.mem_append.mp hr with hr | hr
    · obtain ⟨i', hl', rfl⟩ := H.requests r hr
      exact hown i' hl'
    · rw [List.mem_singleton.mp hr]
      exact hown i hl
  · intro j r hr
    obtain ⟨i', hl', rfl⟩ := H.children j r hr
    exact hown i' hl'
  · simp only [List.map_append, List.map_cons, List.map_nil]
    refine List.nodup_append.mpr ⟨H.once, by simp, ?_⟩
    intro q hq q' hq' he
    subst he
    obtain ⟨r, hr, rfl⟩ := List.mem_map.mp hq
    exact hw ⟨r, hr, by simpa using hq'⟩
  · intro _
    refine .queued ?_ ?_ ?_ ?_
    · simp
    · simp [Client.req]
    · simpa [State.Serves] using hs
    · simpa [State.msgs] using hm
  · simp [Client.Ok, hrec]
  · simp

theorem inv_fork {j : Nat} (H : Inv fs s) (h : fork s j = some t) : Inv fs t := by
  unfold fork at h
  split at h
  · rename_i req rest hQ hj
    cases h
    have hmem : req ∈ s.serverQ := by simp [hQ]
    obtain ⟨i, hl, rfl⟩ := H.requests req hmem
    obtain ⟨hpc, hs, hm⟩ := H.queued_stage hl hmem
    have hnd := H.once
    rw [hQ, List.map_cons, List.nodup_cons] at hnd
    have hserves : ∀ k q, State.Serves { s.setChild j (.opening (s.client i).req) with
        serverQ := rest } k q ↔ (k = j ∧ q = (s.client i).clientId) ∨ s.Serves k q := by
      intro k q
      by_cases hk : k = j
      · subst hk; simp [State.Serves, hj, Child.req?, Client.req, eq_comm]
      · simp [State.Serves, hk]
    refine H.of_step i (fun _ _ => rfl) ?_ (fun _ => H.queues i hl) ?_ ?_ ?_ hnd.2 ?_ ?_ (H.ok i)
      (H.finished i)
    · intro i' h' hl'
      have hne : (s.client i').clientId ≠ (s.client i).clientId := fun he =>
        h' (H.distinct i' i hl' hl he)
      refine ⟨fun r hr => ?_, fun k hk => ?_, rfl⟩
      · have : r ≠ (s.client i).req := by rintro rfl; exact hne hr.symm
        simp [hQ, this]
      · have hk' : s.Serves k (s.client i').clientId := by
          rcases hk with hk | hk
          · exact hk
          · rcases (hserves _ _).mp hk with ⟨-, he⟩ | hk
            · exact absurd he hne
            · exact hk
        have : k ≠ j := by
          rintro rfl
          obtain ⟨r, hr, -⟩ := hk'
          simp [hj, Child.req?] at hr
        simp [this]
    · intro i' h' hl' _ he
      exact h' (H.distinct i' i hl' hl he)
    · intro r hr
      exact H.requests r (by simp [hQ, show r ∈ rest from hr])
    · intro k r hr
      by_cases hk : k = j
      · subst hk
        simp only [State.setChild_self, Child.req?, Option.some.injEq] at hr
        exact ⟨i, hl, hr.symm⟩
      · exact H.children k r (by simpa [hk] using hr)
    · intro k k' q hk hk'
      rcases (hserves _ _).mp hk with ⟨rfl, rfl⟩ | h₁ <;>
        rcases (hserves _ _).mp hk' with ⟨rfl, he⟩ | h₂
      · rfl
      · exact absurd h₂ (hs k')
      · subst he; exact absurd h₁ (hs k)
      · exact H.oneChild k k' q h₁ h₂
    · intro _
      refine .served j (.inl hpc) ?_ ?_ ?_
      · rintro ⟨r, hr, hq⟩
        exact hnd.1 (List.mem_map.mpr ⟨r, hr, hq⟩)
      · simp [Child.req?]
      · simpa [Child.Sent, State.msgs] using hm
  · cases h

/-- A child moves on with the request of client `i`: its queue becomes `ms`, and the child is
done only when that completes the answer. -/
theorem Inv.childStep (H : Inv fs s) {i j : Nat} (hl : (s.client i).Live)
    (hr : (s.child j).req? = some (s.client i).req) {ch : Child} {ms : List ResponseMsg}
    (hnew : ch.req? = some (s.client i).req ∧
        ch.Sent fs (s.client i).pathname ((s.client i).received ++ ms) ∨
      ch.req? = none ∧ Complete fs (s.client i).pathname ((s.client i).received ++ ms)) :
    Inv fs ((s.setQueue (s.client i).clientId (some ms)).setChild j ch) := by
  obtain ⟨hpc, hw, -⟩ := H.served_stage hl hr
  have hreq : ∀ r, ch.req? = some r → r = (s.client i).req := by
    intro r hcr
    rcases hnew with ⟨h, -⟩ | ⟨h, -⟩
    · rw [h] at hcr; exact (Option.some.inj hcr).symm
    · rw [h] at hcr; cases hcr
  have hserves : ∀ {k q},
      ((s.setQueue (s.client i).clientId (some ms)).setChild j ch).Serves k q → s.Serves k q := by
    rintro k q ⟨r, hkr, hq⟩
    by_cases hk : k = j
    · subst hk
      simp only [State.setChild_self] at hkr
      exact ⟨_, hr, by rw [← hreq r hkr, hq]⟩
    · exact ⟨r, by simpa [hk] using hkr, hq⟩
  have hne : ∀ i', i' ≠ i → (s.client i').Live → (s.client i').clientId ≠ (s.client i).clientId :=
    fun i' h' hl' he => h' (H.distinct i' i hl' hl he)
  refine H.of_step i (fun _ _ => rfl) ?_ (fun _ => ⟨ms, by simp⟩) (fun i' h' hl' _ => hne i' h' hl')
    H.requests ?_ H.once (fun k k' q hk hk' => H.oneChild k k' q (hserves hk) (hserves hk')) ?_
    (H.ok i) (H.finished i)
  · intro i' h' hl'
    have hold : ¬ (s.setQueue (s.client i).clientId (some ms)).Serves j (s.client i').clientId := by
      rintro ⟨r, hjr, hq⟩
      simp only [State.setQueue_child, hr, Option.some.injEq] at hjr
      exact hne i' h' hl' (by rw [← hq, ← hjr]; rfl)
    have h₁ := (SameFor.refl _ s).setQueue (hne i' h' hl') (some ms)
    have h₂ := SameFor.setChild ch hold fun r hcr hq => hne i' h' hl' (by
      rw [← hq, hreq r hcr]; rfl)
    exact ⟨h₂.serverQ, h₂.child, h₁.queue⟩
  · intro k r hkr
    obtain ⟨r', hr', -⟩ := hserves ⟨r, hkr, rfl⟩
    by_cases hk : k = j
    · subst hk
      simp only [State.setChild_self] at hkr
      exact ⟨i, hl, hreq r hkr⟩
    · exact H.children k r (by simpa [hk] using hkr)
  · intro _
    rcases hnew with ⟨hcr, hm⟩ | ⟨hcr, hm⟩
    · exact .served j hpc (by simpa using hw) (by simpa using hcr) (by simpa [State.msgs] using hm)
    · refine .answered ?_ (by simpa using hw) ?_ (by simpa [State.msgs] using hm)
      · rcases hpc with h | h <;> simp [h]
      · intro k hk
        obtain rfl := H.oneChild k j _ (hserves hk) ⟨_, hr, rfl⟩
        obtain ⟨r, hkr, -⟩ := hk
        simp [hcr] at hkr

theorem State.setQueue_eq_self {q : Nat} {ms : List ResponseMsg} (h : s.queue q = some ms) :
    s.setQueue q (some ms) = s := by
  rw [State.setQueue, ← h, Function.update_eq_self]

/-- The client, queue and messages of the request that child `j` serves. -/
theorem Inv.owner (H : Inv fs s) {j : Nat} {r : RequestMsg} (hr : (s.child j).req? = some r) :
    ∃ i ms, (s.client i).Live ∧ r = (s.client i).req ∧ s.queue r.clientId = some ms ∧
      (s.child j).Sent fs (s.client i).pathname ((s.client i).received ++ ms) := by
  obtain ⟨i, hl, rfl⟩ := H.children j r hr
  obtain ⟨ms, hms⟩ := H.queues i hl
  obtain ⟨-, -, hsent⟩ := H.served_stage hl hr
  exact ⟨i, ms, hl, rfl, hms, by simpa [State.msgs, hms] using hsent⟩

theorem inv_openFile {j : Nat} (H : Inv fs s) (h : openFile fs s j = some t) : Inv fs t := by
  unfold openFile at h
  split at h
  · rename_i req hj
    obtain ⟨i, ms, hl, rfl, hms, hsent⟩ := H.owner (r := req) (by rw [hj]; rfl)
    simp only [hj, Child.Sent] at hsent
    rw [← State.setQueue_eq_self hms] at h
    split at h
    · rename_i hfs
      cases h
      exact H.childStep hl (by rw [hj]; rfl) (.inl ⟨rfl, hfs, hsent⟩)
    · rename_i file hfs
      cases h
      refine H.childStep hl (by rw [hj]; rfl) (.inl ⟨rfl, file, hfs, ?_, ?_⟩)
      · simp [hsent, AllData]
      · simp [hsent]
  · cases h

theorem inv_read {j n : Nat} (H : Inv fs s) (h : read s j n = some t) : Inv fs t := by
  unfold read at h
  split at h
  · rename_i req rest hj
    obtain ⟨i, ms, hl, rfl, hms, hsent⟩ := H.owner (r := req) (by rw [hj]; rfl)
    simp only [hj, Child.Sent] at hsent
    obtain ⟨file, hfs, hall, hpay⟩ := hsent
    simp only [Option.ite_none_right_eq_some, Option.some.injEq] at h
    obtain ⟨hn, rfl⟩ := h
    rw [← State.setQueue_eq_self hms]
    rcases hn with ⟨rfl, rfl⟩ | ⟨h1, hmax, hle⟩
    · exact H.childStep hl (by rw [hj]; rfl) (.inl ⟨rfl, file, hfs, hall, by simpa using hpay⟩)
    · rw [if_neg (by omega)]
      refine H.childStep hl (by rw [hj]; rfl) (.inl ⟨rfl, file, hfs, ?_, ?_⟩)
      · intro m hm
        rcases List.mem_append.mp hm with hm | hm
        · exact hall m hm
        · rw [List.mem_singleton.mp hm]
          simp [dataMsg, hle, h1, hmax]
      · simpa [List.append_assoc, List.take_append_drop] using hpay
  · cases h

theorem inv_msgsnd {j : Nat} (H : Inv fs s) (h : msgsnd s j = some t) : Inv fs t := by
  unfold msgsnd at h
  split at h
  · rename_i req hj
    obtain ⟨i, ms, hl, rfl, hms, hsent⟩ := H.owner (r := req) (by rw [hj]; rfl)
    simp only [hj, Child.Sent] at hsent
    simp only [State.send, hms, Option.map_some, Option.getD_some, Option.some.injEq] at h
    subst h
    refine H.childStep hl (by rw [hj]; rfl) (.inr ⟨rfl, ?_⟩)
    have hfs : fs (s.client i).pathname = none := hsent.1
    rw [Complete, hfs, ← List.append_assoc, hsent.2]
    rfl
  · rename_i req chunk rest hj
    obtain ⟨i, ms, hl, rfl, hms, hsent⟩ := H.owner (r := req) (by rw [hj]; rfl)
    simp only [hj, Child.Sent] at hsent
    obtain ⟨file, hfs, hall, hpay⟩ := hsent
    simp only [State.send, hms, Option.map_some, Option.some.injEq] at h
    subst h
    refine H.childStep hl (by rw [hj]; rfl) (.inl ⟨rfl, file, hfs, ?_, ?_⟩)
    · simpa [List.append_assoc, dataMsg] using hall
    · simpa [List.append_assoc] using hpay
  · rename_i req hj
    obtain ⟨i, ms, hl, rfl, hms, hsent⟩ := H.owner (r := req) (by rw [hj]; rfl)
    simp only [hj, Child.Sent] at hsent
    obtain ⟨file, hfs, hall, hpay⟩ := hsent
    simp only [State.send, hms, Option.map_some, Option.getD_some, Option.some.injEq] at h
    subst h
    refine H.childStep hl (by rw [hj]; rfl) (.inr ⟨rfl, ?_⟩)
    have hfs' : fs (s.client i).pathname = some file := hfs
    rw [Complete, hfs', ← List.append_assoc]
    exact ⟨_, hall, hpay, rfl⟩
  · cases h

/-- A child that is still serving has sent nothing but data. -/
theorem Child.Sent.allData {ch : Child} {path : List UInt8} {ms : List ResponseMsg}
    (h : ch.Sent fs path ms) : AllData ms := by
  cases ch with
  | unused | exited => cases h
  | opening => subst h; simp [AllData]
  | sendFailure => rw [h.2]; simp [AllData]
  | reading => obtain ⟨_, _, h, _⟩ := h; exact h
  | sendData =>
    obtain ⟨_, _, h, _⟩ := h
    exact fun m hm => h m (List.mem_append_left _ hm)
  | sendEnd => obtain ⟨_, _, h, _⟩ := h; exact h

theorem Complete.length_le {path : List UInt8} {ms : List ResponseMsg}
    (h : Complete fs path ms) : ∀ m ∈ ms, m.data.length ≤ RESP_MSG_SIZE := by
  unfold Complete at h
  split at h
  · subst h
    simp [failureMsg, failureText, RESP_MSG_SIZE]
  · obtain ⟨ds, hall, -, rfl⟩ := h
    intro m hm
    rcases List.mem_append.mp hm with hm | hm
    · exact (hall m hm).2.2
    · rw [List.mem_singleton.mp hm]; exact Nat.zero_le _

/-- Only the last message of an answer is not data. -/
theorem Complete.eq_nil {path : List UInt8} {ds ms : List ResponseMsg} {m : ResponseMsg}
    (h : Complete fs path (ds ++ [m] ++ ms)) (hm : m.mtype ≠ .data) : ms = [] := by
  by_contra hne
  obtain ⟨ms', last, rfl⟩ := List.eq_nil_or_concat ms |>.resolve_left hne
  unfold Complete at h
  split at h
  · have := congrArg List.length h
    simp at this
    omega
  · obtain ⟨ds', hall, -, he⟩ := h
    rw [List.concat_eq_append, ← List.append_assoc] at he
    obtain ⟨rfl, -⟩ := List.append_inj' he rfl
    exact hm (hall m (by simp)).1

theorem inv_msgrcv {i : Nat} (H : Inv fs s) (h : msgrcv s i = some t) : Inv fs t := by
  simp only [msgrcv, Option.ite_none_right_eq_some] at h
  obtain ⟨hpc, h⟩ := h
  split at h
  · rename_i m ms hq
    cases h
    have hl : (s.client i).Live := by rcases hpc with h | h <;> simp [Client.Live, h]
    have hms : s.msgs (s.client i) = (s.client i).received ++ m :: ms := by simp [State.msgs, hq]
    have hmem : m ∈ s.msgs (s.client i) := by simp [hms]
    have hrl : ((s.client i).receive m).Live := by
      rw [Client.Live, Client.receive_pc]; split <;> simp
    have hown : ∀ i', (s.client i').Live → ∃ k,
        (((s.setQueue (s.client i).clientId (some ms)).setClient i
          ((s.client i).receive m)).client k).Live ∧
        (s.client i').req = (((s.setQueue (s.client i).clientId (some ms)).setClient i
          ((s.client i).receive m)).client k).req := by
      intro i' hl'
      by_cases h' : i' = i
      · subst h'; exact ⟨i', by simpa using hrl, by simp [Client.req]⟩
      · exact ⟨i', by simpa [h'] using hl', by simp [h']⟩
    have hne : ∀ i', i' ≠ i → (s.client i').Live →
        (s.client i').clientId ≠ (s.client i).clientId :=
      fun i' h' hl' he => h' (H.distinct i' i hl' hl he)
    -- the messages are only moved from the queue to the client
    have hstage : m.data.length ≤ RESP_MSG_SIZE ∧
        Stage fs ((s.setQueue (s.client i).clientId (some ms)).setClient i
          ((s.client i).receive m)) ((s.client i).receive m) := by
      cases H.stage i hl with
      | unsent hpc' => rcases hpc with h | h <;> simp [h] at hpc'
      | queued _ _ _ hm => simp [hm] at hmem
      | served j _ hw hr hm =>
        have hd := hm.allData m hmem
        refine ⟨hd.2.2, .served j (.inr ?_) (by simpa using hw) ?_ ?_⟩
        · simp [Client.receive_pc, hd.1]
        · simpa [Client.req] using hr
        · simpa [State.msgs, hq] using hm
      | answered _ hw hs hm =>
        refine ⟨hm.length_le m hmem, .answered ?_ (by simpa using hw) (by simpa using hs) ?_⟩
        · rw [Client.receive_pc]; split <;> simp
        · simpa [State.msgs, hq] using hm
    refine H.of_step i ?_ ?_ ?_ ?_ ?_ ?_ H.once H.oneChild ?_ ?_ ?_
    · intro i' h'; simp [h']
    · intro i' h' hl'
      exact ((SameFor.refl _ s).setQueue (hne i' h' hl') _).setClient i _
    · intro _; simp
    · intro i' h' hl' _; simpa using hne i' h' hl'
    · intro r hr
      obtain ⟨i', hl', rfl⟩ := H.requests r hr
      exact hown i' hl'
    · intro j r hr
      obtain ⟨i', hl', rfl⟩ := H.children j r hr
      exact hown i' hl'
    · intro _; simpa using hstage.2
    · simpa using (H.ok i).receive hpc hstage.1
    · intro hx
      simp only [State.setClient_self] at hx
      exact absurd hx hrl.2
  · cases h

theorem Client.Finished.last {c : Client} (h : c.Finished) :
    ∃ ds m, c.received = ds ++ [m] ∧ m.mtype ≠ .data := by
  cases h with
  | failure m hr hm => exact ⟨[], m, by simpa using hr, by simp [hm]⟩
  | received ds m hr _ hm => exact ⟨ds, m, hr, hm⟩

theorem inv_exit {i : Nat} (H : Inv fs s) (h : exit s i = some t) : Inv fs t := by
  simp only [exit, Option.ite_none_right_eq_some, Option.some.injEq] at h
  obtain ⟨hpc, rfl⟩ := h
  have hl : (s.client i).Live := by simp [Client.Live, hpc]
  have hfin : (s.client i).Finished := by simpa [Client.Ok, hpc] using H.ok i
  obtain ⟨hw, hs, hm⟩ : ¬ s.Waiting (s.client i).clientId ∧
      (∀ j, ¬ s.Serves j (s.client i).clientId) ∧
      Complete fs (s.client i).pathname (s.msgs (s.client i)) := by
    cases H.stage i hl with
    | unsent hpc' => simp [hpc] at hpc'
    | queued hpc' => simp [hpc] at hpc'
    | served _ hpc' => simp [hpc] at hpc'
    | answered _ hw hs hm => exact ⟨hw, hs, hm⟩
  obtain ⟨ds, m, hrec, hmt⟩ := hfin.last
  have hall : s.msgs (s.client i) = (s.client i).received := by
    have : (s.queue (s.client i).clientId).getD [] = [] := by
      rw [State.msgs, hrec] at hm
      exact hm.eq_nil hmt
    simp [State.msgs, this]
  have hne : ∀ i', i' ≠ i → (s.client i').Live → (s.client i').clientId ≠ (s.client i).clientId :=
    fun i' h' hl' he => h' (H.distinct i' i hl' hl he)
  have hdead : ¬ ((((s.setQueue (s.client i).clientId none).setClient i
      { s.client i with pc := .exited }).client i).Live) := by simp [Client.Live]
  refine H.of_step i ?_ ?_ (fun h => absurd h hdead) (fun _ _ _ h => absurd h hdead) ?_ ?_ H.once
    H.oneChild (fun h => absurd h hdead) ?_ ?_
  · intro i' h'; simp [h']
  · intro i' h' hl'
    exact ((SameFor.refl _ s).setQueue (hne i' h' hl') _).setClient i _
  · intro r hr
    obtain ⟨i', hl', rfl⟩ := H.requests r hr
    have h' : i' ≠ i := by rintro rfl; exact hw ⟨_, hr, rfl⟩
    exact ⟨i', by simpa [h'] using hl', by simp [h']⟩
  · intro j r hr
    obtain ⟨i', hl', rfl⟩ := H.children j r hr
    have h' : i' ≠ i := by rintro rfl; exact hs j ⟨_, hr, rfl⟩
    exact ⟨i', by simpa [h'] using hl', by simp [h']⟩
  · simp only [State.setClient_self, Client.Ok]
    cases hfin with
    | failure m hr hm ho => exact .failure m hr hm ho
    | received ds m hr hds hm h1 ho => exact .received ds m hr hds hm h1 ho
  · intro _
    simpa [hall] using hm

theorem inv_next {a : Label} (H : Inv fs s) (h : (machine fs).next s a = some t) : Inv fs t := by
  cases a with
  | create => exact inv_create H h
  | request => exact inv_request H h
  | fork => exact inv_fork H h
  | openFile => exact inv_openFile H h
  | read => exact inv_read H h
  | msgsnd => exact inv_msgsnd H h
  | msgrcv => exact inv_msgrcv H h
  | exit => exact inv_exit H h

theorem reachable_inv (h : (machine fs).Reachable initial s) : Inv fs s :=
  h.invariant (inv_initial fs) fun _ _ _ H _ hn => inv_next H hn

end

end Tlpi.SvmsgFile
