import Mathlib.Algebra.BigOperators.Ring.Finset
import Tlpi.Lib.CBuf
import Tlpi.Lib.Machine
import Tlpi.Lib.Monitor
import Tlpi.Lib.Tally

/-!
# The uppercase server and its clients (`sockets/ud_ucase_sv.c`, `sockets/ud_ucase_cl.c`)

Any number of clients send their command-line arguments to the server one by one, each as a datagram
to the server's socket, and wait for the response on a socket of their own. A client without
arguments, or whose first one is `--help`, exits with the usage message. A socket holds at most
`qlen` datagrams; a sender waits while it is full. A datagram is cut to the receiver's buffer.
-/

namespace Tlpi.UdUcase

open Function

def BUF_SIZE : Nat := 10

def toupper (c : UInt8) : UInt8 := if 97 ≤ c ∧ c ≤ 122 then c - 32 else c

/-- A command-line argument. -/
structure Arg where
  bytes : List UInt8
  zero_notMem : 0 ∉ bytes

/-- `--help` -/
def help : List UInt8 := [45, 45, 104, 101, 108, 112]

/-- The arguments of a client that exits with the usage message. -/
def usageErr (argv : List Arg) : Bool := argv.isEmpty || argv.head?.any (·.bytes = help)

/-- What `recvfrom` puts into a buffer of `BUF_SIZE` bytes. -/
def recvfrom (dgram : List UInt8) : List UInt8 := dgram.take BUF_SIZE

/-- The datagram that the server returns. -/
def reply (dgram : List UInt8) : List UInt8 := (recvfrom dgram).map toupper

structure Client where
  /-- The arguments whose responses have been printed. -/
  j : Nat
  /-- In `recvfrom`, after `sendto`. -/
  waiting : Bool
  /-- The datagrams at the client's socket. -/
  inbox : List (List UInt8)
  /-- The responses as `%.*s` prints them. -/
  printed : List (List UInt8)

structure State (ι : Type*) where
  client : ι → Client
  /-- The datagrams at the server's socket, with their senders. -/
  queue : List (ι × List UInt8)
  /-- What the server has received and converted and not yet returned. -/
  buf : Option (ι × List UInt8)

inductive Label (ι : Type*)
  | client (i : ι)
  | server

section

variable {ι : Type*} [DecidableEq ι]

def State.init : State ι := ⟨fun _ => ⟨0, false, [], []⟩, [], none⟩

def client (args : ι → List Arg) (qlen : Nat) (s : State ι) (i : ι) : Option (State ι) :=
  if usageErr (args i) then none
  else match s.client i with
  | ⟨j, false, inbox, out⟩ =>
    match (args i)[j]? with
    | none => none
    | some arg =>
      if s.queue.length < qlen then
        some { s with
          client := update s.client i ⟨j, true, inbox, out⟩
          queue := s.queue ++ [(i, arg.bytes)] }
      else none
  | ⟨_, true, [], _⟩ => none
  | ⟨j, true, dgram :: inbox, out⟩ =>
    some { s with
      client := update s.client i ⟨j + 1, false, inbox, out ++ [cstr (recvfrom dgram)]⟩ }

def server (qlen : Nat) (s : State ι) : Option (State ι) :=
  match s.buf, s.queue with
  | none, [] => none
  | none, (i, dgram) :: queue => some { s with queue := queue, buf := some (i, reply dgram) }
  | some (i, dgram), _ =>
    if (s.client i).inbox.length < qlen then
      some { s with
        client := update s.client i
          { s.client i with inbox := (s.client i).inbox ++ [dgram] }
        buf := none }
    else none

def step (args : ι → List Arg) (qlen : Nat) (s : State ι) : Label ι → Option (State ι)
  | .client i => client args qlen s i
  | .server => server qlen s

def machine (args : ι → List Arg) (qlen : Nat) : Machine (State ι) (Label ι) := ⟨step args qlen⟩

end

/-! ### The answer to each client -/

/-- The arguments that a client sends: all of them, unless it exits with the usage message. -/
def messages (argv : List Arg) : List Arg := if usageErr argv then [] else argv

/-- What the client prints for an argument. -/
def Arg.response (arg : Arg) : List UInt8 := (arg.bytes.take BUF_SIZE).map toupper

section

variable {ι : Type*} [DecidableEq ι]

/-- The answers that the server has yet to return, the next one first. -/
def State.answers (s : State ι) : List (ι × List UInt8) :=
  s.buf.toList ++ s.queue.map fun r => (r.1, reply r.2)

/-- Those to the client `i`. -/
def forClient (i : ι) (answers : List (ι × List UInt8)) : List (List UInt8) :=
  (answers.filter (·.1 = i)).map (·.2)

/-- What is on its way to a client is the answer that it waits for. -/
structure Client.Ok (args : List Arg) (answers : List (List UInt8)) (c : Client) : Prop where
  waiting : c.waiting = true → c.j < args.length
  flight : c.inbox ++ answers =
    if c.waiting then (args[c.j]?.map Arg.response).toList else []
  printed : c.printed = (args.take c.j).map Arg.response

def Inv (args : ι → List Arg) (s : State ι) : Prop :=
  ∀ i, (s.client i).Ok (messages (args i)) (forClient i s.answers)

variable {args : ι → List Arg} {qlen : Nat} {s t : State ι} {i k : ι}

theorem forClient_cons_self (d : List UInt8) (l : List (ι × List UInt8)) :
    forClient i ((i, d) :: l) = d :: forClient i l := by
  simp [forClient]

theorem forClient_cons_of_ne (d : List UInt8) (l : List (ι × List UInt8)) (h : k ≠ i) :
    forClient k ((i, d) :: l) = forClient k l := by
  simp [forClient, h.symm]

theorem forClient_append (l l' : List (ι × List UInt8)) :
    forClient i (l ++ l') = forClient i l ++ forClient i l' := by
  simp [forClient]

theorem toupper_ne_zero {c : UInt8} (h : c ≠ 0) : toupper c ≠ 0 := by
  rw [toupper]
  split
  · next hc =>
    intro h0
    have h1 := hc.1
    have h2 := hc.2
    rw [UInt8.le_iff_toNat_le] at h1 h2
    have h3 := congrArg UInt8.toNat h0
    rw [UInt8.toNat_sub_of_le _ _ (by rw [UInt8.le_iff_toNat_le]; simp at *; omega)] at h3
    simp at h1 h2 h3
    omega
  · exact h

theorem Arg.recvfrom_response (arg : Arg) : recvfrom arg.response = arg.response :=
  List.take_of_length_le (by simp [Arg.response])

/-- The client prints the response as it is. -/
theorem Arg.cstr_response (arg : Arg) : cstr arg.response = arg.response :=
  cstr_eq_self fun h0 => by
    obtain ⟨c, hc, hzero⟩ := List.mem_map.mp h0
    exact toupper_ne_zero (fun h => arg.zero_notMem (h ▸ List.mem_of_mem_take hc)) hzero

theorem messages_of_lt {argv : List Arg} {j : Nat} (h : j < (messages argv).length) :
    usageErr argv = false ∧ messages argv = argv := by
  cases hu : usageErr argv with
  | true => simp [messages, hu] at h
  | false => exact ⟨rfl, by simp [messages, hu]⟩

theorem client_cases (hn : client args qlen s i = some t) :
    ((s.client i).waiting = false ∧ s.queue.length < qlen ∧
      ∃ arg, (messages (args i))[(s.client i).j]? = some arg ∧
      t.client = update s.client i { s.client i with waiting := true } ∧
      t.queue = s.queue ++ [(i, arg.bytes)] ∧ t.buf = s.buf) ∨
    ((s.client i).waiting = true ∧ ∃ dgram inbox, (s.client i).inbox = dgram :: inbox ∧
      t.client = update s.client i ⟨(s.client i).j + 1, false, inbox,
        (s.client i).printed ++ [cstr (recvfrom dgram)]⟩ ∧
      t.queue = s.queue ∧ t.buf = s.buf) := by
  rw [client, Option.ite_none_left_eq_some] at hn
  obtain ⟨hu, hn⟩ := hn
  split at hn
  · next j inbox out hi =>
    split at hn
    · cases hn
    · next arg harg =>
      simp only [Option.ite_none_right_eq_some, Option.some.injEq] at hn
      obtain ⟨hq, rfl⟩ := hn
      have hargs : messages (args i) = args i := if_neg hu
      exact .inl ⟨by rw [hi], hq, arg, by rw [hi, hargs]; exact harg, by rw [hi], rfl, rfl⟩
  · cases hn
  · next j dgram inbox out hi =>
    cases hn
    exact .inr ⟨by rw [hi], dgram, inbox, by rw [hi], by rw [hi], rfl, rfl⟩

theorem server_cases (hn : server qlen s = some t) :
    (t.client = s.client ∧ t.answers = s.answers ∧ s.buf = none ∧
      t.buf.isSome ∧ s.queue.length = t.queue.length + 1) ∨
    ∃ i dgram, s.buf = some (i, dgram) ∧ t.buf = none ∧ t.queue = s.queue ∧
      t.client = update s.client i { s.client i with inbox := (s.client i).inbox ++ [dgram] } := by
  rw [server] at hn
  split at hn
  · cases hn
  · next i dgram queue hbuf hqueue =>
    cases hn
    exact .inl ⟨rfl, by simp [State.answers, hbuf, hqueue], hbuf, rfl, by simp [hqueue]⟩
  · next i dgram hbuf =>
    simp only [Option.ite_none_right_eq_some, Option.some.injEq] at hn
    obtain ⟨-, rfl⟩ := hn
    exact .inr ⟨i, dgram, hbuf, rfl, rfl, rfl⟩

/-! ### The steps -/

/-- A step that changes one client and the answers to it. -/
theorem Inv.update {c : Client} (h : Inv args s) (hclient : t.client = update s.client i c)
    (hother : ∀ k, k ≠ i → forClient k t.answers = forClient k s.answers)
    (hc : c.Ok (messages (args i)) (forClient i t.answers)) : Inv args t := fun k => by
  rcases eq_or_ne k i with rfl | hk
  · rwa [hclient, update_self]
  · rw [hclient, update_of_ne hk, hother k hk]
    exact h k

theorem Inv.client (h : Inv args s) (hn : client args qlen s i = some t) : Inv args t := by
  have hi := h i
  have hflight := hi.flight
  rcases client_cases hn with ⟨hw, -, arg, harg, hclient, hqueue, hbuf⟩ |
    ⟨hw, dgram, inbox, hinbox, hclient, hqueue, hbuf⟩
  · have hanswers : t.answers = s.answers ++ [(i, reply arg.bytes)] := by
      simp [State.answers, hqueue, hbuf]
    simp only [hw] at hflight
    refine h.update hclient (fun k hk => ?_) ⟨fun _ => ?_, ?_, hi.printed⟩
    · rw [hanswers, forClient_append, forClient_cons_of_ne _ _ hk]
      simp [forClient]
    · exact (List.getElem?_eq_some_iff.mp harg).1
    · rw [hanswers, forClient_append, ← List.append_assoc, hflight, harg]
      simp [forClient, Arg.response, reply, recvfrom]
  · have hanswers : t.answers = s.answers := by rw [State.answers, hqueue, hbuf, State.answers]
    have hlt := hi.waiting hw
    simp only [hw, hinbox, List.getElem?_eq_getElem hlt] at hflight
    simp only [if_true, Option.map_some, Option.toList_some, List.cons_append, List.cons.injEq]
      at hflight
    obtain ⟨rfl, hrest⟩ := hflight
    refine h.update hclient (fun k _ => by rw [hanswers])
      ⟨by simp, by simpa [hanswers] using hrest, ?_⟩
    simp only [hi.printed, Arg.recvfrom_response, Arg.cstr_response]
    rw [List.take_add_one, List.getElem?_eq_getElem hlt, List.map_append]
    rfl

theorem Inv.server (h : Inv args s) (hn : server qlen s = some t) : Inv args t := by
  rcases server_cases hn with ⟨hclient, hanswers, -⟩ | ⟨i, dgram, hbuf, hbuf', hqueue, hclient⟩
  · intro k
    rw [hclient, hanswers]
    exact h k
  · have hanswers : s.answers = (i, dgram) :: t.answers := by
      simp [State.answers, hbuf, hbuf', hqueue]
    have hi := h i
    refine h.update hclient (fun k hk => ?_) ⟨hi.waiting, ?_, hi.printed⟩
    · rw [hanswers, forClient_cons_of_ne _ _ hk]
    · have hflight := hi.flight
      rwa [hanswers, forClient_cons_self, List.append_cons] at hflight

theorem Inv.step {a : Label ι} (h : Inv args s) (hn : step args qlen s a = some t) :
    Inv args t := by
  cases a with
  | client i => exact h.client hn
  | server => exact h.server hn

theorem inv_init : Inv args State.init := fun i => ⟨by simp [State.init], rfl, by simp [State.init]⟩

/-- The responses that a client has printed are those to its first arguments, and the server never
answers a client that does not wait. -/
structure Right (args : ι → List Arg) (s : State ι) : Prop where
  printed : ∀ i,
    (s.client i).printed = ((messages (args i)).take (s.client i).j).map Arg.response
  alive : ∀ i dgram, s.buf = some (i, dgram) → (s.client i).waiting = true

theorem Inv.inbox_of_buf {dgram : List UInt8} (h : Inv args s) (hbuf : s.buf = some (i, dgram)) :
    (s.client i).waiting = true ∧ (s.client i).inbox = [] := by
  have hflight := (h i).flight
  have hanswers : s.answers = (i, dgram) :: s.queue.map fun r => (r.1, reply r.2) := by
    rw [State.answers, hbuf]
    rfl
  rw [hanswers, forClient_cons_self] at hflight
  cases hw : (s.client i).waiting with
  | false => simp [hw] at hflight
  | true =>
    refine ⟨rfl, ?_⟩
    rw [hw, if_pos rfl, List.getElem?_eq_getElem ((h i).waiting hw)] at hflight
    simpa using ((List.append_eq_singleton_iff.mp hflight).resolve_right (by simp)).1

theorem Inv.right (h : Inv args s) : Right args s :=
  ⟨fun i => (h i).printed, fun _ _ hbuf => (h.inbox_of_buf hbuf).1⟩

end

/-! ### The way to the end -/

section

/-- The steps that a client's arguments still take on their own: four before one is sent, and one
for a response that has arrived. -/
def Client.rank (args : List Arg) (c : Client) : Nat :=
  4 * (args.length - c.j - c.waiting.toNat) + c.inbox.length

/-- A client has printed the responses to all its arguments, and exits. -/
def Client.Done (args : List Arg) (c : Client) : Prop :=
  c.waiting = false ∧ c.printed = args.map Arg.response

variable {ι : Type*} [DecidableEq ι] {args : ι → List Arg} {qlen : Nat} {s t : State ι} {i : ι}

/-- A client that is not done can move once nothing is left for the server to do. -/
theorem Inv.done_or_client (h : Inv args s) (hq : 0 < qlen) (hqueue : s.queue = [])
    (hbuf : s.buf = none) (i : ι) :
    ((s.client i).Done (messages (args i)) ∧
      Client.rank (messages (args i)) (s.client i) = 0) ∨
      ∃ t, UdUcase.client args qlen s i = some t := by
  have hi := h i
  have hflight := hi.flight
  have hanswers : s.answers = [] := by simp [State.answers, hqueue, hbuf]
  rw [hanswers] at hflight
  rcases hc : s.client i with ⟨j, _ | _, inbox, out⟩
  · rw [hc] at hi hflight
    rcases lt_or_ge j (messages (args i)).length with hlt | hge
    · obtain ⟨hu, hargs⟩ := messages_of_lt hlt
      rw [hargs] at hlt
      exact .inr (by simp [UdUcase.client, hu, hc, List.getElem?_eq_getElem hlt, hqueue, hq])
    · have hprinted := hi.printed
      dsimp only at hprinted hflight
      rw [List.take_of_length_le hge] at hprinted
      have hinbox : inbox = [] := by simpa [forClient] using hflight
      exact .inl ⟨⟨rfl, hprinted⟩, by simp [Client.rank, hinbox, hge]⟩
  · rw [hc] at hi hflight
    have hlt := hi.waiting rfl
    dsimp only at hlt hflight
    rw [if_pos rfl, List.getElem?_eq_getElem hlt] at hflight
    cases inbox with
    | nil => simp [forClient] at hflight
    | cons dgram inbox =>
      exact .inr (by simp [UdUcase.client, (messages_of_lt hlt).1, hc])

variable [Fintype ι]

def State.rank (args : ι → List Arg) (s : State ι) : Nat :=
  tally (fun i c => Client.rank (messages (args i)) c) s.client + 3 * s.queue.length +
    2 * s.buf.toList.length

theorem Inv.rank_client (h : Inv args s) (hn : UdUcase.client args qlen s i = some t) :
    s.rank args = t.rank args + 1 := by
  have htally (c : Client) :=
    tally_update (fun i c => Client.rank (messages (args i)) c) s.client i c
  rcases client_cases hn with ⟨hw, -, arg, harg, hclient, hqueue, hbuf⟩ |
    ⟨hw, dgram, inbox, hinbox, hclient, hqueue, hbuf⟩
  · have hlt := (List.getElem?_eq_some_iff.mp harg).1
    rw [State.rank, State.rank, hclient, hqueue, hbuf]
    generalize hc : ({ s.client i with waiting := true } : Client) = c
    have := htally c
    simp only [Client.rank, hw, ← hc, Bool.toNat_false, Bool.toNat_true, List.length_append,
      List.length_singleton] at this ⊢
    omega
  · have hlt := (h i).waiting hw
    rw [State.rank, State.rank, hclient, hqueue, hbuf]
    generalize hc : (⟨(s.client i).j + 1, false, inbox, _⟩ : Client) = c
    have := htally c
    simp only [Client.rank, hw, hinbox, ← hc, Bool.toNat_false, Bool.toNat_true,
      List.length_cons] at this ⊢
    omega

theorem rank_server (hn : server qlen s = some t) : s.rank args = t.rank args + 1 := by
  rcases server_cases hn with ⟨hclient, -, hbuf, hbuf', hqueue⟩ |
    ⟨i, dgram, hbuf, hbuf', hqueue, hclient⟩
  · obtain ⟨r, hr⟩ := Option.isSome_iff_exists.mp hbuf'
    rw [State.rank, State.rank, hclient, hqueue, hbuf, hr]
    simp only [Option.toList_none, Option.toList_some, List.length_nil, List.length_singleton]
    omega
  · have htally (c : Client) :=
      tally_update (fun i c => Client.rank (messages (args i)) c) s.client i c
    rw [State.rank, State.rank, hclient, hqueue, hbuf, hbuf']
    generalize hc : ({ s.client i with inbox := (s.client i).inbox ++ [dgram] } : Client) = c
    have := htally c
    simp only [Client.rank, ← hc, List.length_append, List.length_singleton, Option.toList_none,
      Option.toList_some, List.length_nil] at this ⊢
    omega

theorem Inv.rank_step {a : Label ι} (h : Inv args s) (hn : UdUcase.step args qlen s a = some t) :
    s.rank args = t.rank args + 1 := by
  cases a with
  | client i => exact h.rank_client hn
  | server => exact rank_server hn

theorem Inv.done_or_step (h : Inv args s) (hq : 0 < qlen) :
    ((∀ i, (s.client i).Done (messages (args i))) ∧ s.rank args = 0) ∨
      ∃ a t, UdUcase.step args qlen s a = some t := by
  cases hbuf : s.buf with
  | some r =>
    obtain ⟨i, dgram⟩ := r
    have hinbox := (h.inbox_of_buf hbuf).2
    exact .inr ⟨.server, by simp [UdUcase.step, UdUcase.server, hbuf, hinbox, hq]⟩
  | none =>
    cases hqueue : s.queue with
    | cons r queue => exact .inr ⟨.server, by simp [UdUcase.step, UdUcase.server, hbuf, hqueue]⟩
    | nil =>
      refine or_iff_not_imp_right.mpr fun hstuck => ?_
      have hdone (i : ι) := (h.done_or_client hq hqueue hbuf i).resolve_right fun ⟨t, hn⟩ =>
        hstuck ⟨.client i, t, hn⟩
      refine ⟨fun i => (hdone i).1, ?_⟩
      rw [State.rank, tally_eq_zero fun i => (hdone i).2, hqueue, hbuf]
      rfl

/-- Every client that does not exit with its usage message gets the responses to its own arguments,
in order, and however the clients and the server take turns, the run ends when all of these clients
have got all of them. -/
theorem responses_exact (args : ι → List Arg) (hq : 0 < qlen) :
    (∀ s, (machine args qlen).Reachable .init s → Right args s) ∧
      (machine args qlen).EndsIn .init (4 * ∑ i, (messages (args i)).length) fun s =>
        ∀ i, (s.client i).Done (messages (args i)) := by
  refine ⟨fun s h => (h.invariant inv_init fun _ _ _ h _ hn => h.step hn).right, ?_⟩
  have hinit : State.rank args .init = 4 * ∑ i, (messages (args i)).length := by
    simp [State.rank, State.init, tally, Client.rank, Finset.mul_sum]
  rw [← hinit]
  exact .of_rank (I := Inv args) (fun _ _ _ h hn => h.step hn) (fun _ _ _ h hn => h.rank_step hn)
    (fun _ h => h.done_or_step hq) inv_init

/-- `long message` is cut. -/
theorem responses_exact_cut : (machine (fun _ : Fin 2 =>
      [⟨[108, 111, 110, 103, 32, 109, 101, 115, 115, 97, 103, 101], by decide⟩]) 1).EndsIn .init 8
    fun s => ∀ i, (s.client i).printed = [[76, 79, 78, 71, 32, 77, 69, 83, 83, 65]] := by
  intro as t hr
  obtain ⟨hle, hlt, heq⟩ := (responses_exact (fun _ : Fin 2 =>
    [⟨[108, 111, 110, 103, 32, 109, 101, 115, 115, 97, 103, 101], by decide⟩])
    (Nat.zero_lt_succ 0)).2 as t hr
  exact ⟨hle, hlt, fun hlen i => (heq hlen i).2.trans (by decide)⟩

end

end Tlpi.UdUcase
