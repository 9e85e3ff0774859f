import Tlpi.Svmsg.FileServerLemmas

/-!
# Every client is served

Runs that take a request to its end. No client is ever stuck: from every reachable state its
answer can be completed, received and counted.
-/

namespace Tlpi.SvmsgFile

section
variable {fs : Fs} {s₀ s : State}

theorem step (h : (machine fs).Reachable s₀ s) (a : Label) {t : State}
    (hn : (machine fs).next s a = some t) : (machine fs).Reachable s₀ t :=
  .step h trivial hn

/-! ### The client's side -/

theorem exists_exit {i : Nat} (h : (machine fs).Reachable s₀ s) (hpc : (s.client i).pc = .exit) :
    ∃ t, (machine fs).Reachable s₀ t ∧ (t.client i).pc = .exited ∧
      (t.client i).received = (s.client i).received :=
  ⟨_, step h (.exit i) (by simp only [machine, exit, if_pos hpc]; rfl), by simp⟩

/-- A client with its whole answer in the queue takes it out and exits. -/
theorem exists_drained {i : Nat} {ds : List ResponseMsg} {m : ResponseMsg}
    (h : (machine fs).Reachable s₀ s) (hpc : (s.client i).pc = .first ∨ (s.client i).pc = .loop)
    (hq : s.queue (s.client i).clientId = some (ds ++ [m])) (hds : ∀ d ∈ ds, d.mtype = .data)
    (hm : m.mtype ≠ .data) : ∃ t, (machine fs).Reachable s₀ t ∧ (t.client i).pc = .exited ∧
      (t.client i).received = (s.client i).received ++ (ds ++ [m]) := by
  induction ds generalizing s with
  | nil =>
    have hn := step h (.msgrcv i) (by
      simp only [machine, msgrcv, if_pos hpc, hq, List.nil_append]; rfl)
    obtain ⟨t, ht, hx, hr⟩ := exists_exit (i := i) hn (by simp [Client.receive_pc, hm])
    exact ⟨t, ht, hx, by simpa using hr⟩
  | cons d ds ih =>
    have hn := step h (.msgrcv i) (by
      simp only [machine, msgrcv, if_pos hpc, hq, List.cons_append]; rfl)
    have hd := hds d List.mem_cons_self
    obtain ⟨t, ht, hx, hr⟩ := ih hn (by simp [Client.receive_pc, hd]) (by simp)
      fun e he => hds e (List.mem_cons_of_mem _ he)
    exact ⟨t, ht, hx, by simpa using hr⟩

/-! ### The child's side -/

/-- `t` differs from `s` only in child `j` and in the queues. -/
structure ByChild (j : Nat) (s t : State) : Prop where
  client : t.client = s.client
  serverQ : t.serverQ = s.serverQ
  child : ∀ k, k ≠ j → t.child k = s.child k

theorem ByChild.trans {j : Nat} {s t u : State} (h₁ : ByChild j s t) (h₂ : ByChild j t u) :
    ByChild j s u :=
  ⟨h₂.client.trans h₁.client, h₂.serverQ.trans h₁.serverQ,
    fun k hk => (h₂.child k hk).trans (h₁.child k hk)⟩

theorem ByChild.setChild (j : Nat) (s : State) (ch : Child) : ByChild j s (s.setChild j ch) :=
  ⟨rfl, rfl, fun _ hk => State.setChild_ne _ _ _ hk⟩

theorem ByChild.setQueue (j : Nat) (s : State) (q : Nat) (ms : Option (List ResponseMsg)) :
    ByChild j s (s.setQueue q ms) :=
  ⟨rfl, rfl, fun _ _ => rfl⟩

theorem exists_sentEnd {j : Nat} {r : RequestMsg} {ms : List ResponseMsg}
    (h : (machine fs).Reachable s₀ s) (hj : s.child j = .sendEnd r)
    (hq : s.queue r.clientId = some ms) : ∃ t, (machine fs).Reachable s₀ t ∧ ByChild j s t ∧
      t.child j = .exited ∧ t.queue r.clientId = some (ms ++ [endMsg]) := by
  have hn := step h (.msgsnd j)
    (t := (s.setQueue r.clientId (some (ms ++ [endMsg]))).setChild j .exited)
    (by simp only [machine, msgsnd, hj, State.send, hq, Option.map_some, Option.getD_some, endMsg])
  exact ⟨_, hn, (ByChild.setQueue ..).trans (.setChild ..), by simp, by simp⟩

/-- A child that reads byte by byte sends the rest of the file and the end message. -/
theorem exists_sentAll {j : Nat} {r : RequestMsg} {rest : List UInt8} {ms : List ResponseMsg}
    (h : (machine fs).Reachable s₀ s) (hj : s.child j = .reading r rest)
    (hq : s.queue r.clientId = some ms) : ∃ t, (machine fs).Reachable s₀ t ∧ ByChild j s t ∧
      t.child j = .exited ∧
      t.queue r.clientId = some (ms ++ (rest.map fun b => dataMsg [b]) ++ [endMsg]) := by
  induction rest generalizing s ms with
  | nil =>
    have hn := step h (.read j 0) (t := s.setChild j (.sendEnd r)) (by
      simp only [machine, read, hj]; rw [if_pos (.inl ⟨rfl, rfl⟩)]; rfl)
    obtain ⟨t, ht, hby, hx, hq'⟩ := exists_sentEnd hn (State.setChild_self ..) hq
    exact ⟨t, ht, (ByChild.setChild ..).trans hby, hx, by simpa using hq'⟩
  | cons b rest ih =>
    have hr := step h (.read j 1) (t := s.setChild j (.sendData r [b] rest)) (by
      simp only [machine, read, hj]
      rw [if_pos (.inr ⟨Nat.le_refl _, by decide, by simp⟩)]; rfl)
    have hn := step hr (.msgsnd j)
      (t := ((s.setChild j (.sendData r [b] rest)).setQueue r.clientId
        (some (ms ++ [dataMsg [b]]))).setChild j (.reading r rest)) (by
      simp only [machine, msgsnd, State.setChild_self, State.send, State.setChild_queue, hq,
        Option.map_some, dataMsg])
    obtain ⟨t, ht, hby, hx, hq'⟩ := ih hn (State.setChild_self ..) (State.setQueue_self ..)
    refine ⟨t, ht, ?_, hx, by simpa using hq'⟩
    exact (ByChild.setChild ..).trans
      ((ByChild.setQueue ..).trans ((ByChild.setChild ..).trans hby))

theorem exists_sentFailure {j : Nat} {r : RequestMsg} {ms : List ResponseMsg}
    (h : (machine fs).Reachable s₀ s) (hj : s.child j = .sendFailure r)
    (hq : s.queue r.clientId = some ms) :
    ∃ t, (machine fs).Reachable s₀ t ∧ ByChild j s t ∧ t.child j = .exited := by
  have hn := step h (.msgsnd j)
    (t := (s.setQueue r.clientId (some (ms ++ [failureMsg]))).setChild j .exited) (by
      simp only [machine, msgsnd, hj, State.send, hq, Option.map_some, Option.getD_some,
        failureMsg])
  exact ⟨_, hn, (ByChild.setQueue ..).trans (.setChild ..), by simp⟩

/-- A child gets to its exit. -/
theorem exists_childExited {j : Nat} {r : RequestMsg} (H : Inv fs s)
    (h : (machine fs).Reachable s₀ s) (hr : (s.child j).req? = some r) :
    ∃ t, (machine fs).Reachable s₀ t ∧ ByChild j s t ∧ t.child j = .exited := by
  obtain ⟨i, ms, -, -, hq, -⟩ := H.owner hr
  cases hj : s.child j with
  | unused | exited => simp [hj, Child.req?] at hr
  | opening r' =>
    obtain rfl : r' = r := by simpa [hj, Child.req?] using hr
    cases hfs : fs r'.pathname with
    | none =>
      have hn := step h (.openFile j) (t := s.setChild j (.sendFailure r')) (by
        simp only [machine, openFile, hj, hfs])
      obtain ⟨t, ht, hby, hx⟩ := exists_sentFailure hn (State.setChild_self ..) hq
      exact ⟨t, ht, (ByChild.setChild ..).trans hby, hx⟩
    | some file =>
      have hn := step h (.openFile j) (t := s.setChild j (.reading r' file.content)) (by
        simp only [machine, openFile, hj, hfs])
      obtain ⟨t, ht, hby, hx, -⟩ := exists_sentAll hn (State.setChild_self ..) hq
      exact ⟨t, ht, (ByChild.setChild ..).trans hby, hx⟩
  | sendFailure r' =>
    obtain rfl : r' = r := by simpa [hj, Child.req?] using hr
    exact exists_sentFailure h hj hq
  | reading r' rest =>
    obtain rfl : r' = r := by simpa [hj, Child.req?] using hr
    obtain ⟨t, ht, hby, hx, -⟩ := exists_sentAll h hj hq
    exact ⟨t, ht, hby, hx⟩
  | sendData r' chunk rest =>
    obtain rfl : r' = r := by simpa [hj, Child.req?] using hr
    have hn := step h (.msgsnd j)
      (t := (s.setQueue r'.clientId (some (ms ++ [dataMsg chunk]))).setChild j (.reading r' rest))
      (by simp only [machine, msgsnd, hj, State.send, hq, Option.map_some, dataMsg])
    obtain ⟨t, ht, hby, hx, -⟩ := exists_sentAll hn (State.setChild_self ..)
      (State.setQueue_self ..)
    exact ⟨t, ht, (ByChild.setQueue ..).trans ((ByChild.setChild ..).trans hby), hx⟩
  | sendEnd r' =>
    obtain rfl : r' = r := by simpa [hj, Child.req?] using hr
    obtain ⟨t, ht, hby, hx, -⟩ := exists_sentEnd h hj hq
    exact ⟨t, ht, hby, hx⟩

/-! ### The server's side -/

/-- There is always another process to fork. -/
def State.CanFork (s : State) : Prop := ∃ n, ∀ j, n ≤ j → s.child j = .unused

theorem State.CanFork.setChild (h : s.CanFork) (j : Nat) (ch : Child) :
    (s.setChild j ch).CanFork := by
  obtain ⟨n, hn⟩ := h
  refine ⟨max n (j + 1), fun k hk => ?_⟩
  rw [State.setChild_ne _ _ _ (by omega)]
  exact hn k (by omega)

theorem canFork_next {a : Label} {t : State} (H : s.CanFork)
    (h : (machine fs).next s a = some t) : t.CanFork := by
  cases a with
  | create | request | exit =>
    simp only [machine, create, request, exit, Option.ite_none_right_eq_some,
      Option.some.injEq] at h
    obtain ⟨-, rfl⟩ := h
    exact H
  | msgrcv =>
    simp only [machine, msgrcv, Option.ite_none_right_eq_some] at h
    obtain ⟨-, h⟩ := h
    split at h <;> cases h
    exact H
  | fork =>
    simp only [machine, fork] at h
    split at h <;> cases h
    exact H.setChild ..
  | openFile =>
    simp only [machine, openFile] at h
    split at h
    · split at h <;> cases h <;> exact H.setChild ..
    · cases h
  | read =>
    simp only [machine, read] at h
    split at h
    · simp only [Option.ite_none_right_eq_some, Option.some.injEq] at h
      obtain ⟨-, rfl⟩ := h
      exact H.setChild ..
    · cases h
  | msgsnd j =>
    have hsend : ∀ q m u, s.send q m = some u → u.CanFork := by
      intro q m u hu
      obtain ⟨ms, -, rfl⟩ := Option.map_eq_some_iff.mp hu
      exact H
    have hgetD : ∀ q m, ((s.send q m).getD s).CanFork := by
      intro q m
      cases hu : s.send q m with
      | none => exact H
      | some u => exact hsend q m u hu
    simp only [machine, msgsnd] at h
    split at h
    · cases h; exact (hgetD _ _).setChild ..
    · split at h
      · rename_i u hu
        cases h
        exact (hsend _ _ u hu).setChild ..
      · cases h; exact H.setChild ..
    · cases h; exact (hgetD _ _).setChild ..
    · cases h

theorem reachable_canFork (h : (machine fs).Reachable initial s) : s.CanFork :=
  h.invariant ⟨0, fun _ _ => rfl⟩ fun _ _ _ H _ hn => canFork_next H hn

/-- The server gets to every request in its queue. -/
theorem exists_forked {r : RequestMsg} {before after : List RequestMsg}
    (h : (machine fs).Reachable s₀ s) (hc : s.CanFork) (hQ : s.serverQ = before ++ r :: after) :
    ∃ t j, (machine fs).Reachable s₀ t ∧ t.client = s.client ∧ (t.child j).req? = some r := by
  induction before generalizing s with
  | nil =>
    obtain ⟨n, hn⟩ := hc
    have hs := step h (.fork n) (by
      simp only [machine, fork, hQ, hn n le_rfl, List.nil_append]; rfl)
    exact ⟨_, n, hs, rfl, by simp [Child.req?]⟩
  | cons r' before ih =>
    obtain ⟨n, hn⟩ := hc
    have hs := step h (.fork n) (by
      simp only [machine, fork, hQ, hn n le_rfl, List.cons_append]; rfl)
    obtain ⟨t, j, ht, hcl, hr⟩ := ih hs (State.CanFork.setChild ⟨n, hn⟩ n _) rfl
    exact ⟨t, j, ht, hcl, hr⟩

end

/-! ### From any state to the client's exit -/

section
variable {fs : Fs} {s : State}

theorem Complete.split {path : List UInt8} {ms : List ResponseMsg} (h : Complete fs path ms) :
    ∃ ds m, ms = ds ++ [m] ∧ (∀ d ∈ ds, d.mtype = .data) ∧ m.mtype ≠ .data := by
  unfold Complete at h
  split at h
  · exact ⟨[], failureMsg, h, by simp, by simp [failureMsg]⟩
  · obtain ⟨ds, hall, -, rfl⟩ := h
    exact ⟨ds, endMsg, rfl, fun d hd => (hall d hd).1, by simp [endMsg]⟩

theorem exists_exited_of_answered {i : Nat} (h : (machine fs).Reachable initial s)
    (hpc : (s.client i).pc = .first ∨ (s.client i).pc = .loop ∨ (s.client i).pc = .exit)
    (hm : Complete fs (s.client i).pathname (s.msgs (s.client i))) :
    ∃ t, (machine fs).Reachable s t ∧ (t.client i).pc = .exited := by
  have H := reachable_inv h
  by_cases hx : (s.client i).pc = .exit
  · obtain ⟨t, ht, hpc', -⟩ := exists_exit (.self (machine fs) s) hx
    exact ⟨t, ht, hpc'⟩
  have hpc : (s.client i).pc = .first ∨ (s.client i).pc = .loop := by
    rcases hpc with h | h | h
    · exact .inl h
    · exact .inr h
    · exact absurd h hx
  have hl : (s.client i).Live := by rcases hpc with h | h <;> simp [Client.Live, h]
  -- nothing but data was received, so the last message is still in the queue
  have hrec : ∀ d ∈ (s.client i).received, d.mtype = .data := by
    have hok := H.ok i
    rcases hpc with h | h <;> simp only [Client.Ok, h] at hok
    · simp [hok]
    · exact hok.2.1
  obtain ⟨q, hq⟩ := H.queues i hl
  obtain ⟨ds, m, hms, hds, hmt⟩ := hm.split
  rw [State.msgs, hq, Option.getD_some] at hms
  obtain rfl | ⟨q', m', rfl⟩ := List.eq_nil_or_concat q
  · refine absurd (hrec m ?_) hmt
    rw [← List.append_nil (s.client i).received, hms]
    simp
  rw [List.concat_eq_append, ← List.append_assoc] at hms
  obtain ⟨hds', he⟩ := List.append_inj' hms rfl
  obtain rfl : m' = m := by simpa using he
  obtain ⟨t, ht, hpc', -⟩ := exists_drained (.self (machine fs) s) hpc (by simpa using hq)
    (fun d hd => hds d (hds' ▸ List.mem_append_right _ hd)) hmt
  exact ⟨t, ht, hpc'⟩

/-- A client whose request a child has taken gets its answer and exits. -/
theorem exists_exited_of_served {i j : Nat} (h : (machine fs).Reachable initial s)
    (hl : (s.client i).Live) (hr : (s.child j).req? = some (s.client i).req) :
    ∃ t, (machine fs).Reachable s t ∧ (t.client i).pc = .exited := by
  have H := reachable_inv h
  obtain ⟨hpc, hw, -⟩ := H.served_stage hl hr
  obtain ⟨t, ht, hby, hx⟩ := exists_childExited H (.self (machine fs) s) hr
  have hanswered : Complete fs (t.client i).pathname (t.msgs (t.client i)) := by
    cases (reachable_inv (h.trans ht)).stage i (hby.client ▸ hl) with
    | unsent hpc' => rcases hpc with h | h <;> simp [hby.client, h] at hpc'
    | queued _ hr' =>
      rw [hby.client, hby.serverQ] at hr'
      exact absurd ⟨_, hr', rfl⟩ hw
    | served k _ _ hk =>
      by_cases hkj : k = j
      · subst hkj
        simp [hx, Child.req?] at hk
      · rw [hby.client, hby.child k hkj] at hk
        exact absurd (H.oneChild k j _ ⟨_, hk, rfl⟩ ⟨_, hr, rfl⟩) hkj
    | answered _ _ _ hm => exact hm
  have hpc' : (t.client i).pc = .first ∨ (t.client i).pc = .loop ∨ (t.client i).pc = .exit := by
    rw [hby.client]
    exact hpc.imp_right .inl
  obtain ⟨u, hu, hux⟩ := exists_exited_of_answered (h.trans ht) hpc' hanswered
  exact ⟨u, ht.trans hu, hux⟩

theorem exists_exited_of_queued {i : Nat} (h : (machine fs).Reachable initial s)
    (hl : (s.client i).Live) (hr : (s.client i).req ∈ s.serverQ) :
    ∃ t, (machine fs).Reachable s t ∧ (t.client i).pc = .exited := by
  obtain ⟨before, after, hQ⟩ := List.append_of_mem hr
  obtain ⟨t, j, ht, hc, hj⟩ := exists_forked (.self (machine fs) s) (reachable_canFork h) hQ
  obtain ⟨u, hu, hux⟩ := exists_exited_of_served (i := i) (j := j) (h.trans ht) (hc ▸ hl)
    (by rw [hc]; exact hj)
  exact ⟨u, ht.trans hu, hux⟩

/-- From every reachable state a client that has started can get to its exit. -/
theorem exists_exited {i : Nat} (h : (machine fs).Reachable initial s) (hl : (s.client i).Live) :
    ∃ t, (machine fs).Reachable s t ∧ (t.client i).pc = .exited := by
  cases (reachable_inv h).stage i hl with
  | unsent hpc =>
    have hn := step (.self (machine fs) s) (.request i) (by
      simp only [machine, request, if_pos hpc]; rfl)
    obtain ⟨t, ht, hx⟩ := exists_exited_of_queued (i := i) (h.trans hn) (by simp [Client.Live])
      (by simp [Client.req])
    exact ⟨t, hn.trans ht, hx⟩
  | queued _ hr => exact exists_exited_of_queued h hl hr
  | served j _ _ hr => exact exists_exited_of_served h hl hr
  | answered hpc _ _ hm =>
    refine exists_exited_of_answered h ?_ hm
    cases hc : (s.client i).pc with
    | idle => exact absurd hc hl.1
    | request => exact absurd hc hpc
    | first => exact .inl rfl
    | loop => exact .inr (.inl rfl)
    | exit => exact .inr (.inr rfl)
    | exited => exact absurd hc hl.2

/-! ### What the clients report -/

/-- What a client that has exited got and printed. -/
def Client.Reported (fs : Fs) (c : Client) : Prop :=
  match fs c.pathname with
  | none => c.received = [failureMsg] ∧ c.output = some (.failure failureText)
  | some file => ∃ ds, AllData ds ∧ payload ds = file.content ∧ c.received = ds ++ [endMsg] ∧
    c.output = some (.received file.content.length (ds.length + 1))

/-- The server and its clients agree in `s`. -/
structure Agrees (fs : Fs) (s : State) : Prop where
  -- what has been sent to a client can be continued to a whole answer
  answering : ∀ i, (s.client i).Live → ∃ ms, Complete fs (s.client i).pathname (s.msgs (s.client i) ++ ms)
  served : ∀ i, (s.client i).Live → ∃ t, (machine fs).Reachable s t ∧ (t.client i).pc = .exited
  reported : ∀ i, (s.client i).pc = .exited → (s.client i).Reported fs
  -- only the child that serves its owner puts a message in a queue
  ownQueue : ∀ a t q, (machine fs).next s a = some t →
    ((s.queue q).getD []).length < ((t.queue q).getD []).length → ∃ i j, a = .msgsnd j ∧
      (s.client i).Live ∧ (s.client i).clientId = q ∧ (s.child j).req? = some (s.client i).req

/-- The pieces into which the child's reads cut the file. -/
def Client.chunks (c : Client) : List (List UInt8) :=
  (c.received.filter (·.mtype = .data)).map (·.data)

theorem AllData.filter {ds : List ResponseMsg} (h : AllData ds) :
    ds.filter (·.mtype = .data) = ds :=
  List.filter_eq_self.mpr fun d hd => by simp [(h d hd).1]

theorem Complete.extend {path : List UInt8} {ds : List ResponseMsg} {file : File}
    (rest : List UInt8) (hfs : fs path = some file) (hall : AllData ds)
    (hpay : payload ds ++ rest = file.content) : ∃ ms, Complete fs path (ds ++ ms) := by
  refine ⟨rest.map (fun b => dataMsg [b]) ++ [endMsg], ?_⟩
  rw [Complete, hfs]
  refine ⟨ds ++ rest.map fun b => dataMsg [b], ?_, ?_, by simp⟩
  · intro m hm
    rcases List.mem_append.mp hm with hm | hm
    · exact hall m hm
    · obtain ⟨b, -, rfl⟩ := List.mem_map.mp hm
      simp [dataMsg, RESP_MSG_SIZE]
  · rw [payload_append, ← hpay]
    simp [payload, dataMsg, List.flatMap_map]

theorem exists_complete (fs : Fs) (path : List UInt8) : ∃ ms, Complete fs path ms := by
  cases hfs : fs path with
  | none => exact ⟨[failureMsg], by rw [Complete, hfs]⟩
  | some file =>
    have hnil : AllData [] := by simp [AllData]
    obtain ⟨ms, h⟩ := Complete.extend file.content hfs hnil rfl
    exact ⟨ms, h⟩

/-- What a child has sent so far is the beginning of an answer. -/
theorem Child.Sent.answering {ch : Child} {path : List UInt8} {ms : List ResponseMsg}
    (h : ch.Sent fs path ms) : ∃ ms', Complete fs path (ms ++ ms') := by
  cases ch with
  | unused | exited => cases h
  | opening =>
    obtain rfl : ms = [] := h
    exact exists_complete fs path
  | sendFailure =>
    obtain rfl : ms = [] := h.2
    exact exists_complete fs path
  | reading =>
    obtain ⟨file, hfs, hall, hpay⟩ := h
    exact Complete.extend _ hfs hall hpay
  | sendData _ chunk rest =>
    obtain ⟨file, hfs, hall, hpay⟩ := h
    exact Complete.extend (chunk ++ rest) hfs (fun m hm => hall m (List.mem_append_left _ hm))
      (List.append_assoc .. ▸ hpay)
  | sendEnd =>
    obtain ⟨file, hfs, hall, hpay⟩ := h
    exact Complete.extend [] hfs hall (by simpa using hpay)

theorem Stage.answering {c : Client} (h : Stage fs s c) :
    ∃ ms, Complete fs c.pathname (s.msgs c ++ ms) := by
  cases h with
  | unsent _ _ _ hm => rw [hm]; exact exists_complete fs _
  | queued _ _ _ hm => rw [hm]; exact exists_complete fs _
  | served _ _ _ _ hm => exact hm.answering
  | answered _ _ _ hm => exact ⟨[], by simpa using hm⟩

theorem State.send_length {q q' : Nat} {m : ResponseMsg} (ch : Child) (j : Nat)
    (h : ((s.queue q).getD []).length <
      (((((s.send q' m).getD s).setChild j ch).queue q).getD []).length) : q' = q := by
  by_contra hne
  have : ((s.send q' m).getD s).queue q = s.queue q := by
    cases hs : s.send q' m with
    | none => rfl
    | some t =>
      obtain ⟨ms, -, rfl⟩ := Option.map_eq_some_iff.mp hs
      exact State.setQueue_ne _ _ _ (Ne.symm hne)
  rw [State.setChild_queue, this] at h
  exact Nat.lt_irrefl _ h

/-- A `msgsnd` adds to no queue but the one of the request that the child serves. -/
theorem serves_of_msgsnd {j q : Nat} {t : State} (h : msgsnd s j = some t)
    (hlen : ((s.queue q).getD []).length < ((t.queue q).getD []).length) : s.Serves j q := by
  unfold msgsnd at h
  split at h
  · rename_i r hj
    cases h
    exact ⟨r, by simp [hj, Child.req?], State.send_length _ _ hlen⟩
  · rename_i r chunk rest hj
    refine ⟨r, by simp [hj, Child.req?], ?_⟩
    split at h
    · rename_i u hu
      cases h
      refine State.send_length (s := s) (m := ⟨.data, chunk⟩) (.reading r rest) j ?_
      rw [hu]
      exact hlen
    · cases h
      exact absurd hlen (Nat.lt_irrefl _)
  · rename_i r hj
    cases h
    exact ⟨r, by simp [hj, Child.req?], State.send_length _ _ hlen⟩
  · cases h

theorem State.setQueue_length_le {q q' : Nat} {ms : Option (List ResponseMsg)}
    (h : (ms.getD []).length ≤ ((s.queue q').getD []).length) :
    (((s.setQueue q' ms).queue q).getD []).length ≤ ((s.queue q).getD []).length := by
  by_cases hq : q = q'
  · subst hq
    simpa using h
  · rw [State.setQueue_ne _ _ _ hq]

theorem msgsnd_of_length_lt {a : Label} {t : State} {q : Nat}
    (h : (machine fs).next s a = some t)
    (hlen : ((s.queue q).getD []).length < ((t.queue q).getD []).length) :
    ∃ j, a = .msgsnd j ∧ s.Serves j q := by
  have hle : ((t.queue q).getD []).length ≤ ((s.queue q).getD []).length →
      ∃ j, a = .msgsnd j ∧ s.Serves j q := fun h => absurd hlen (Nat.not_lt.mpr h)
  cases a with
  | msgsnd j => exact ⟨j, rfl, serves_of_msgsnd h hlen⟩
  | create | exit =>
    simp only [machine, create, exit, Option.ite_none_right_eq_some, Option.some.injEq] at h
    obtain ⟨-, rfl⟩ := h
    exact hle (State.setQueue_length_le (Nat.zero_le _))
  | msgrcv =>
    simp only [machine, msgrcv, Option.ite_none_right_eq_some] at h
    obtain ⟨-, h⟩ := h
    split at h <;> cases h
    rename_i m ms hq
    exact hle (State.setQueue_length_le (by simp [hq]))
  | request =>
    simp only [machine, request, Option.ite_none_right_eq_some, Option.some.injEq] at h
    obtain ⟨-, rfl⟩ := h
    exact hle le_rfl
  | fork =>
    simp only [machine, fork] at h
    split at h <;> cases h
    exact hle le_rfl
  | openFile =>
    simp only [machine, openFile] at h
    split at h
    · split at h <;> cases h <;> exact hle le_rfl
    · cases h
  | read =>
    simp only [machine, read] at h
    split at h
    · simp only [Option.ite_none_right_eq_some, Option.some.injEq] at h
      obtain ⟨-, rfl⟩ := h
      exact hle le_rfl
    · cases h

theorem Inv.ownQueue (H : Inv fs s) {a : Label} {t : State} {q : Nat}
    (h : (machine fs).next s a = some t)
    (hlen : ((s.queue q).getD []).length < ((t.queue q).getD []).length) :
    ∃ i j, a = .msgsnd j ∧ (s.client i).Live ∧ (s.client i).clientId = q ∧
      (s.child j).req? = some (s.client i).req := by
  obtain ⟨j, rfl, r, hr, rfl⟩ := msgsnd_of_length_lt h hlen
  obtain ⟨i, hl, rfl⟩ := H.children j r hr
  exact ⟨i, j, rfl, hl, rfl, hr⟩

/-- A client that has exited reports its answer exactly when its message counter did not
overflow. -/
theorem Inv.reported_iff (H : Inv fs s) {i : Nat} (hx : (s.client i).pc = .exited) :
    (s.client i).Reported fs ↔ (s.client i).chunks.length + 1 < 2 ^ 31 := by
  have hfin : (s.client i).Finished := by simpa [Client.Ok, hx] using H.ok i
  have hm := H.finished i hx
  unfold Complete at hm
  unfold Client.Reported
  cases hfs : fs (s.client i).pathname with
  | none =>
    simp only [hfs] at hm
    have hc : (s.client i).chunks = [] := by simp [Client.chunks, hm, failureMsg]
    simp only [hc, hm, true_and, List.length_nil]
    refine iff_of_true ?_ (by decide)
    cases hfin with
    | failure m hr _ ho =>
      obtain rfl : failureMsg = m := by simpa [hm] using hr
      exact ho
    | received ds m hr _ _ h1 =>
      rw [hm] at hr
      obtain ⟨rfl, he⟩ := List.append_inj' ((List.nil_append _).trans hr) rfl
      obtain rfl : failureMsg = m := by simpa using he
      exact absurd rfl (h1 rfl)
  | some file =>
    simp only [hfs] at hm
    obtain ⟨ds, hall, hpay, hr⟩ := hm
    have hc : (s.client i).chunks.length = ds.length := by
      simp [Client.chunks, hr, List.filter_append, hall.filter, endMsg]
    have hlen : (payload (s.client i).received).length = file.content.length := by
      simp [hr, hpay, endMsg]
    have ho : (s.client i).output =
        some (.received file.content.length (wrap32 (ds.length + 1 : Nat))) := by
      cases hfin with
      | failure m hr' hmt =>
        rw [hr] at hr'
        obtain ⟨-, he⟩ := List.append_inj' (hr'.trans (List.nil_append _).symm) rfl
        obtain rfl : endMsg = m := by simpa using he
        exact absurd hmt (by simp [endMsg])
      | received _ _ _ _ _ _ ho =>
        rw [ho, hlen, hr, List.length_append, wrap_natCast_iff.mpr file.size_lt]
        rfl
    rw [hc, ← wrap_natCast_iff (w := 31)]
    constructor
    · rintro ⟨ds', -, -, hr', ho'⟩
      obtain ⟨rfl, -⟩ := List.append_inj' (hr.symm.trans hr') rfl
      rw [ho] at ho'
      simpa using ho'
    · intro hw
      refine ⟨ds, hall, hpay, hr, ?_⟩
      rw [ho, wrap32, hw]
      simp

/-- In every run, server and clients agree exactly as long as no file of a client that is done was
cut into so many pieces that the client's `int` message counter overflows. -/
theorem agrees_iff (h : (machine fs).Reachable initial s) :
    Agrees fs s ↔ ∀ i, (s.client i).pc = .exited → (s.client i).chunks.length + 1 < 2 ^ 31 := by
  have H := reachable_inv h
  constructor
  · intro hagree i hx
    exact (H.reported_iff hx).mp (hagree.reported i hx)
  · intro hlen
    exact {
      answering := fun i hl => (H.stage i hl).answering
      served := fun i hl => exists_exited h hl
      reported := fun i hx => (H.reported_iff hx).mpr (hlen i hx)
      ownQueue := fun a t q hn hq => H.ownQueue hn hq }

/-- One byte is served, received and counted. -/
theorem agrees_one_byte : ∃ s,
    (machine fun _ => some ⟨[65], by decide⟩).Reachable initial s ∧
      (s.client 0).output = some (.received 1 2) ∧
      Agrees (fun _ => some ⟨[65], by decide⟩) s := by
  obtain ⟨s, hs, hout, hc⟩ := Machine.Reachable.exists_of_run
    (M := machine fun _ => some ⟨[65], by decide⟩)
    (P := fun t => (t.client 0).output = some (.received 1 2) ∧
      ∀ i, (t.client i).chunks.length ≤ 1)
    [.create 0 7 [102], .request 0, .fork 0, .openFile 0, .read 0 1, .msgsnd 0, .msgrcv 0,
      .read 0 0, .msgsnd 0, .msgrcv 0, .exit 0] (.self _ initial) ⟨_, rfl, rfl, fun i => by
        cases i with
        | zero => decide
        | succ i => exact Nat.zero_le 1⟩
  exact ⟨s, hs, hout, (agrees_iff hs).mpr fun i _ => Nat.lt_of_le_of_lt
    (Nat.add_le_add_right (hc i) 1) (by decide)⟩

/-- Reading byte by byte, a client gets as many pieces as the file has bytes. -/
theorem exists_chunks (fs : Fs) {path : List UInt8} {file : File} (hlen : path.length ≤ PATH_MAX - 1)
    (hfs : fs path = some file) : ∃ t, (machine fs).Reachable initial t ∧
      (t.client 0).pc = .exited ∧ (t.client 0).chunks.length = file.content.length := by
  obtain ⟨s, hs, hj, hq, hpc, hid, hrec⟩ : ∃ s, (machine fs).Reachable initial s ∧
      s.child 0 = .reading ⟨0, path⟩ file.content ∧ s.queue 0 = some [] ∧
      (s.client 0).pc = .first ∧ (s.client 0).clientId = 0 ∧ (s.client 0).received = [] := by
    refine Machine.Reachable.exists_of_run [.create 0 0 path, .request 0, .fork 0, .openFile 0]
      .refl ?_
    simp [machine, create, request, fork, openFile, initial, hlen, hfs, State.setClient,
      State.setQueue, State.setChild]
  obtain ⟨t, ht, hby, -, hq'⟩ := exists_sentAll hs hj hq
  rw [← hby.client] at hpc hid hrec
  obtain ⟨u, hu, hx, hr⟩ := exists_drained (i := 0) ht (.inl hpc) (by rw [hid]; exact hq')
    (by simp [dataMsg]) (by simp [endMsg])
  refine ⟨u, hu, hx, ?_⟩
  have hdata : AllData (file.content.map fun b => dataMsg [b]) := by
    intro m hm
    obtain ⟨b, -, rfl⟩ := List.mem_map.mp hm
    simp [dataMsg, RESP_MSG_SIZE]
  simp [Client.chunks, hr, hrec, List.filter_append, hdata.filter, endMsg]

theorem exists_not_reported (fs : Fs) {path : List UInt8} {file : File} (hlen : path.length ≤ PATH_MAX - 1)
    (hfs : fs path = some file) (hbig : 2 ^ 31 ≤ file.content.length + 1) :
    ∃ t, (machine fs).Reachable initial t ∧ (t.client 0).pc = .exited ∧
      ¬ (t.client 0).Reported fs := by
  obtain ⟨t, ht, hx, hc⟩ := exists_chunks fs hlen hfs
  refine ⟨t, ht, hx, fun hrep => ?_⟩
  have hlt := ((reachable_inv ht).reported_iff hx).mp hrep
  rw [hc] at hlt
  exact absurd hlt (Nat.not_lt.mpr hbig)

/-- A file of 2 GiB that is read byte by byte is not reported as it was sent. -/
theorem not_agrees_two_gib : ∃ file : File, file.content = List.replicate (2 ^ 31) 0 ∧
    ∃ s, (machine fun _ => some file).Reachable initial s ∧ (s.client 0).pc = .exited ∧
      ¬ Agrees (fun _ => some file) s := by
  have hlen : (List.replicate (2 ^ 31) (0 : UInt8)).length = 2 ^ 31 := List.length_replicate
  obtain ⟨file, hfile⟩ : ∃ file : File, file.content = List.replicate (2 ^ 31) 0 :=
    ⟨⟨List.replicate (2 ^ 31) 0, by rw [hlen]; omega⟩, rfl⟩
  have hpath : ([] : List UInt8).length ≤ PATH_MAX - 1 := Nat.zero_le _
  obtain ⟨s, hs, hx, hrep⟩ := exists_not_reported (fun _ => some file) hpath rfl (by rw [hfile, hlen]; omega)
  exact ⟨file, hfile, s, hs, hx, fun H => hrep (H.reported 0 hx)⟩

end

end Tlpi.SvmsgFile
