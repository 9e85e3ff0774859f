import Tlpi.Lib.CBuf
import Tlpi.Lib.Machine
import Tlpi.Lib.Monitor
import Tlpi.Lib.Stream
import Tlpi.Lib.Tally

/-!
# The echo server and its clients (`sockets/is_echo_sv.c`, `sockets/is_echo_cl.c`)

The server forks a child for each connection; `is_echo_v2_sv.c` does the same without `-i`. A client
is two processes, one that copies its standard input to the socket and one that prints what comes
back. Each direction of a connection holds at most `cap` bytes, so any of the writes can wait.
-/

namespace Tlpi.IsEcho

open Function

def Cl.BUF_SIZE : Nat := 100
def Sv.BUF_SIZE : Nat := 4096

/-- The server's end of a connection. -/
inductive Peer where
  /-- Not accepted yet. -/
  | backlog
  /-- Between `accept` and `fork`. -/
  | accepted
  /-- The `fork` has failed. -/
  | gaveUp
  /-- A child is in `handleRequest`: in `read`, or in a `write` with `buf` left. -/
  | child (buf : List UInt8)
  | zombie
  | reaped
  deriving DecidableEq

def Peer.buf : Peer → List UInt8
  | .child buf => buf
  | _ => []

structure Conn (cap : Nat) where
  stdin : List UInt8
  /-- What the client's parent has read from `stdin` and not yet written. -/
  buf : List UInt8
  /-- The client's parent has called `shutdown` and terminated. -/
  shut : Bool
  /-- The two directions of the connection. -/
  up : Stream UInt8 cap
  peer : Peer
  down : Stream UInt8 cap
  /-- What the client's child has printed. -/
  printed : List UInt8
  /-- The client's child has terminated. -/
  exited : Bool

/-- Where the server is; it has a connection open that it forks for or closes. -/
inductive Main (ι : Type*)
  | accept
  | fork (i : ι)
  | close (i : ι)
  deriving DecidableEq

structure State (ι : Type*) (cap : Nat) where
  conn : ι → Conn cap
  main : Main ι
  /-- `SIGCHLD` is pending. -/
  sigchld : Bool
  /-- In `grimReaper`. -/
  handling : Bool

/-- A step of a process of connection `i` says how many bytes the call moves. -/
inductive Label (ι : Type*)
  | client (i : ι) (n : Nat)
  | clientChild (i : ι) (n : Nat)
  | handleRequest (i : ι) (n : Nat)
  | accept (i : ι)
  | fork (ok : Bool)
  | close
  | grimReaper
  | waitpid (i : Option ι)

section

variable {ι : Type*} [DecidableEq ι] {cap : Nat}

def Conn.init (input : List UInt8) : Conn cap :=
  ⟨input, [], false, .empty, .backlog, .empty, [], false⟩

/-- The server has no descriptor for the connection any more. -/
def State.Closed (s : State ι cap) (i : ι) : Prop :=
  ((s.conn i).peer = .gaveUp ∨ (s.conn i).peer = .zombie ∨ (s.conn i).peer = .reaped) ∧
    s.main ≠ .close i

instance (s : State ι cap) (i : ι) : Decidable (s.Closed i) :=
  inferInstanceAs (Decidable (_ ∧ _))

/-- The client's parent. A `write` to a connection that the server gave up fails. -/
def Conn.client (c : Conn cap) (closed : Prop) [Decidable closed] (n : Nat) :
    Option (Conn cap) :=
  if c.shut then none
  else if c.buf = [] then
    if n = 0 then if c.stdin = [] then some { c with shut := true } else none
    else if n ≤ Cl.BUF_SIZE ∧ n ≤ c.stdin.length then
      some { c with buf := c.stdin.take n, stdin := c.stdin.drop n }
    else none
  else if n = 0 then
    if c.peer = .gaveUp ∧ closed then some { c with shut := true } else none
  else (c.up.put c.buf n).map fun r => { c with up := r.1, buf := r.2 }

/-- The client's child; `%.*s` stops at a null byte. -/
def Conn.clientChild (c : Conn cap) (closed : Prop) [Decidable closed] (n : Nat) :
    Option (Conn cap) :=
  if c.exited then none
  else if n = 0 then
    if c.down.buf = [] ∧ closed then some { c with exited := true } else none
  else if n ≤ Cl.BUF_SIZE then
    (c.down.get n).map fun r => { c with printed := c.printed ++ cstr r.1, down := r.2 }
  else none

/-- The server's child. -/
def Conn.handleRequest (c : Conn cap) (n : Nat) : Option (Conn cap) :=
  match c.peer with
  | .child [] =>
    if n = 0 then
      if c.up.buf = [] ∧ c.shut then some { c with peer := .zombie } else none
    else if n ≤ Sv.BUF_SIZE then
      (c.up.get n).map fun r => { c with peer := .child r.1, up := r.2 }
    else none
  | .child (b :: buf) =>
    (c.down.put (b :: buf) n).map fun r => { c with peer := .child r.2, down := r.1 }
  | _ => none

def State.init (input : ι → List UInt8) : State ι cap :=
  ⟨fun i => .init (input i), .accept, false, false⟩

def State.setConn (s : State ι cap) (i : ι) (c : Conn cap) : State ι cap :=
  { s with conn := update s.conn i c }

def State.setPeer (s : State ι cap) (i : ι) (p : Peer) : State ι cap :=
  s.setConn i { s.conn i with peer := p }

/-- A child that terminates sends `SIGCHLD`. -/
def handleRequest (s : State ι cap) (i : ι) (n : Nat) : Option (State ι cap) :=
  ((s.conn i).handleRequest n).map fun c =>
    { s.setConn i c with sigchld := s.sigchld || c.peer = .zombie }

/-- A step of the server's loop; it does not run while the handler does. -/
def main (s : State ι cap) : Label ι → Option (State ι cap)
  | .accept i =>
    if s.main = .accept ∧ (s.conn i).peer = .backlog then
      some { s.setPeer i .accepted with main := .fork i }
    else none
  | .fork ok =>
    match s.main with
    | .fork i => some { s.setPeer i (if ok then .child [] else .gaveUp) with main := .close i }
    | _ => none
  | .close =>
    match s.main with
    | .close _ => some { s with main := .accept }
    | _ => none
  | _ => none

variable [Fintype ι]

def step (s : State ι cap) : Label ι → Option (State ι cap)
  | .client i n => ((s.conn i).client (s.Closed i) n).map (s.setConn i)
  | .clientChild i n => ((s.conn i).clientChild (s.Closed i) n).map (s.setConn i)
  | .handleRequest i n => handleRequest s i n
  | .grimReaper =>
    if s.sigchld ∧ ¬s.handling then some { s with sigchld := false, handling := true } else none
  | .waitpid (some i) =>
    if s.handling ∧ (s.conn i).peer = .zombie then some (s.setPeer i .reaped) else none
  | .waitpid none =>
    if s.handling ∧ ∀ i, (s.conn i).peer ≠ .zombie then some { s with handling := false } else none
  | a => if s.handling then none else main s a

def machine : Machine (State ι cap) (Label ι) := ⟨step⟩

end

/-! ### One connection -/

section

variable {cap n : Nat} {c c' : Conn cap} {input : List UInt8} {closed : Prop} [Decidable closed]

/-- The bytes on their way, those that are printed next first. -/
def Conn.flight (c : Conn cap) : List UInt8 :=
  c.down.buf ++ (c.peer.buf ++ (c.up.buf ++ (c.buf ++ c.stdin)))

/-- No child serves the connection yet, or ever. -/
def Peer.Unserved (p : Peer) : Prop := p = .backlog ∨ p = .accepted ∨ p = .gaveUp

/-- The child that served the connection has terminated. -/
def Peer.Ended (p : Peer) : Prop := p = .zombie ∨ p = .reaped

/-- Nothing gets lost on the way, and each process ends after the one before it. -/
structure Conn.Ok (input : List UInt8) (c : Conn cap) : Prop where
  sublist : (c.printed ++ c.flight).Sublist input
  flight : 0 ∉ input → c.printed ++ c.flight = input
  printed : 0 ∉ c.printed
  shut : c.shut = true → c.peer = .gaveUp ∨ c.buf = [] ∧ c.stdin = []
  unserved : c.peer.Unserved → c.down.buf = [] ∧ c.printed = []
  ended : c.peer.Ended → c.shut = true ∧ c.up.buf = []
  exited : c.exited = true → c.down.buf = [] ∧ (c.peer = .gaveUp ∨ c.peer.Ended)

theorem ok_init : (Conn.init input : Conn cap).Ok input where
  sublist := by simp [Conn.init, Conn.flight, Peer.buf]
  flight _ := by simp [Conn.init, Conn.flight, Peer.buf]
  printed := List.not_mem_nil
  shut := by simp [Conn.init]
  unserved _ := ⟨rfl, rfl⟩
  ended := by simp [Conn.init, Peer.Ended]
  exited := by simp [Conn.init]

theorem client_cases (hn : c.client closed n = some c') :
    c.shut = false ∧
      (((c.peer = .gaveUp ∨ c.buf = [] ∧ c.stdin = []) ∧ c' = { c with shut := true }) ∨
        (∃ buf stdin, c.buf = [] ∧ buf ++ stdin = c.stdin ∧ stdin.length < c.stdin.length ∧
          c' = { c with buf := buf, stdin := stdin }) ∨
        ∃ up buf, c.up.put c.buf n = some (up, buf) ∧ c' = { c with up := up, buf := buf }) := by
  rw [Conn.client] at hn
  split at hn
  · cases hn
  · next hshut =>
    refine ⟨Bool.eq_false_iff.mpr hshut, ?_⟩
    split at hn
    · next hbuf =>
      split at hn
      · simp only [Option.ite_none_right_eq_some, Option.some.injEq] at hn
        obtain ⟨hstdin, rfl⟩ := hn
        exact .inl ⟨.inr ⟨hbuf, hstdin⟩, rfl⟩
      · simp only [Option.ite_none_right_eq_some, Option.some.injEq] at hn
        obtain ⟨⟨-, hle⟩, rfl⟩ := hn
        refine .inr (.inl ⟨_, _, hbuf, List.take_append_drop n c.stdin, ?_, rfl⟩)
        rw [List.length_drop]
        omega
    · split at hn
      · simp only [Option.ite_none_right_eq_some, Option.some.injEq] at hn
        obtain ⟨⟨hpeer, -⟩, rfl⟩ := hn
        exact .inl ⟨.inl hpeer, rfl⟩
      · obtain ⟨⟨up, buf⟩, hput, rfl⟩ := Option.map_eq_some_iff.mp hn
        exact .inr (.inr ⟨up, buf, hput, rfl⟩)

theorem clientChild_cases (hn : c.clientChild closed n = some c') :
    c.exited = false ∧
      ((c.down.buf = [] ∧ closed ∧ c' = { c with exited := true }) ∨
        ∃ got down, c.down.get n = some (got, down) ∧
          c' = { c with printed := c.printed ++ cstr got, down := down }) := by
  rw [Conn.clientChild] at hn
  split at hn
  · cases hn
  · next hexited =>
    refine ⟨Bool.eq_false_iff.mpr hexited, ?_⟩
    split at hn
    · simp only [Option.ite_none_right_eq_some, Option.some.injEq] at hn
      obtain ⟨⟨hdown, hclosed⟩, rfl⟩ := hn
      exact .inl ⟨hdown, hclosed, rfl⟩
    · simp only [Option.ite_none_right_eq_some] at hn
      obtain ⟨⟨got, down⟩, hget, rfl⟩ := Option.map_eq_some_iff.mp hn.2
      exact .inr ⟨got, down, hget, rfl⟩

theorem handleRequest_cases (hn : c.handleRequest n = some c') :
    (c.peer = .child [] ∧ c.up.buf = [] ∧ c.shut = true ∧ c' = { c with peer := .zombie }) ∨
      (∃ got up, c.peer = .child [] ∧ c.up.get n = some (got, up) ∧
        c' = { c with peer := .child got, up := up }) ∨
      ∃ buf down rest, c.peer = .child buf ∧ c.down.put buf n = some (down, rest) ∧
        c' = { c with peer := .child rest, down := down } := by
  rw [Conn.handleRequest] at hn
  split at hn
  · next hpeer =>
    split at hn
    · simp only [Option.ite_none_right_eq_some, Option.some.injEq] at hn
      obtain ⟨⟨hup, hshut⟩, rfl⟩ := hn
      exact .inl ⟨hpeer, hup, hshut, rfl⟩
    · simp only [Option.ite_none_right_eq_some] at hn
      obtain ⟨⟨got, up⟩, hget, rfl⟩ := Option.map_eq_some_iff.mp hn.2
      exact .inr (.inl ⟨got, up, hpeer, hget, rfl⟩)
  · next b buf hpeer =>
    obtain ⟨⟨down, rest⟩, hput, rfl⟩ := Option.map_eq_some_iff.mp hn
    exact .inr (.inr ⟨b :: buf, down, rest, hpeer, hput, rfl⟩)
  · cases hn

theorem Conn.Ok.client (K : c.Ok input) (hn : c.client closed n = some c') : c'.Ok input := by
  obtain ⟨hshut, ⟨hpeer, rfl⟩ | ⟨buf, stdin, hbuf, hstdin, -, rfl⟩ | ⟨up, buf, hput, rfl⟩⟩ :=
    client_cases hn
  · exact { K with
      shut := fun _ => hpeer
      ended := fun h => ⟨rfl, (K.ended h).2⟩ }
  · have hflight : Conn.flight { c with buf := buf, stdin := stdin } = c.flight := by
      simp only [Conn.flight, hbuf, ← hstdin, List.nil_append]
    exact { K with
      sublist := by rw [hflight]; exact K.sublist
      flight := by rw [hflight]; exact K.flight
      shut := fun h => Bool.noConfusion (h.symm.trans hshut) }
  · obtain ⟨-, heq, -, -⟩ := Stream.of_put hput
    have hflight : Conn.flight { c with up := up, buf := buf } = c.flight := by
      simp only [Conn.flight, ← List.append_assoc up.buf, heq]
      simp only [List.append_assoc]
    exact { K with
      sublist := by rw [hflight]; exact K.sublist
      flight := by rw [hflight]; exact K.flight
      shut := fun h => Bool.noConfusion (h.symm.trans hshut)
      ended := fun h => Bool.noConfusion ((K.ended h).1.symm.trans hshut) }

theorem Conn.Ok.clientChild (K : c.Ok input) (hclosed : closed → c.peer = .gaveUp ∨ c.peer.Ended)
    (hn : c.clientChild closed n = some c') : c'.Ok input := by
  obtain ⟨hexited, ⟨hdown, hc, rfl⟩ | ⟨got, down, hget, rfl⟩⟩ := clientChild_cases hn
  · exact { K with exited := fun _ => ⟨hdown, hclosed hc⟩ }
  · obtain ⟨hpos, heq, hlen, -⟩ := Stream.of_get hget
    have hflight : c.flight = got ++ Conn.flight { c with down := down } := by
      simp only [Conn.flight, ← heq, List.append_assoc]
    have hprefix : (cstr got).Sublist got := List.takeWhile_sublist _
    refine { K with
      sublist := ?_
      flight := fun h0 => ?_
      printed := ?_
      unserved := fun h => ?_
      exited := fun h => Bool.noConfusion (h.symm.trans hexited) }
    · refine .trans ?_ K.sublist
      rw [hflight, List.append_assoc]
      exact .append_left (.append_right hprefix _) _
    · have hgot : 0 ∉ got := fun h => h0 (K.sublist.subset (by simp [hflight, h]))
      have := K.flight h0
      rwa [hflight, ← List.append_assoc, ← cstr_eq_self hgot] at this
    · rw [List.mem_append]
      rintro (h | h)
      · exact K.printed h
      · exact zero_notMem_cstr got h
    · have hnil := (K.unserved h).1
      rw [hnil, List.append_eq_nil_iff] at heq
      rw [heq.1, List.length_nil] at hlen
      omega

theorem Conn.Ok.handleRequest (K : c.Ok input) (hn : c.handleRequest n = some c') :
    c'.Ok input := by
  obtain ⟨hpeer, hup, hshut, rfl⟩ | ⟨got, up, hpeer, hget, rfl⟩ |
    ⟨buf, down, rest, hpeer, hput, rfl⟩ := handleRequest_cases hn
  · have hflight : Conn.flight { c with peer := .zombie } = c.flight := by
      simp only [Conn.flight, hpeer, Peer.buf]
    exact { K with
      sublist := by rw [hflight]; exact K.sublist
      flight := by rw [hflight]; exact K.flight
      shut := fun _ => .inr ((K.shut hshut).resolve_left (by simp [hpeer]))
      unserved := by simp [Peer.Unserved]
      ended := fun _ => ⟨hshut, hup⟩
      exited := fun h => absurd (K.exited h).2 (by simp [hpeer, Peer.Ended]) }
  · obtain ⟨-, heq, -, -⟩ := Stream.of_get hget
    have hflight : Conn.flight { c with peer := .child got, up := up } = c.flight := by
      simp only [Conn.flight, hpeer, Peer.buf, ← heq, List.append_assoc, List.nil_append]
    exact { K with
      sublist := by rw [hflight]; exact K.sublist
      flight := by rw [hflight]; exact K.flight
      shut := fun h => .inr ((K.shut h).resolve_left (by simp [hpeer]))
      unserved := by simp [Peer.Unserved]
      ended := by simp [Peer.Ended]
      exited := fun h => absurd (K.exited h).2 (by simp [hpeer, Peer.Ended]) }
  · obtain ⟨-, heq, -, -⟩ := Stream.of_put hput
    have hflight : Conn.flight { c with peer := .child rest, down := down } = c.flight := by
      simp only [Conn.flight, hpeer, Peer.buf, ← List.append_assoc down.buf, heq]
      simp only [List.append_assoc]
    exact { K with
      sublist := by rw [hflight]; exact K.sublist
      flight := by rw [hflight]; exact K.flight
      shut := fun h => .inr ((K.shut h).resolve_left (by simp [hpeer]))
      unserved := by simp [Peer.Unserved]
      ended := by simp [Peer.Ended]
      exited := fun h => absurd (K.exited h).2 (by simp [hpeer, Peer.Ended]) }

/-- The server leaves the data alone when it accepts, forks or gives up. -/
theorem Conn.Ok.setPeer (K : c.Ok input) {p : Peer} (hpeer : c.peer = .backlog ∨ c.peer = .accepted)
    (hp : p = .accepted ∨ p = .child [] ∨ p = .gaveUp) : Conn.Ok input { c with peer := p } := by
  have hflight : Conn.flight { c with peer := p } = c.flight := by
    rcases hpeer with h | h <;> rcases hp with rfl | rfl | rfl <;>
      simp only [Conn.flight, h, Peer.buf]
  have hexited : c.exited = false := by
    refine Bool.eq_false_iff.mpr fun h => ?_
    have := (K.exited h).2
    rcases hpeer with hp | hp <;> simp [hp, Peer.Ended] at this
  exact {
    sublist := by rw [hflight]; exact K.sublist
    flight := by rw [hflight]; exact K.flight
    printed := K.printed
    shut := fun h => .inr ((K.shut h).resolve_left (by rcases hpeer with h | h <;> simp [h]))
    unserved := fun _ => K.unserved (hpeer.imp_right .inl)
    ended := by rcases hp with rfl | rfl | rfl <;> simp [Peer.Ended]
    exited := fun h => Bool.noConfusion (h.symm.trans hexited) }

theorem Conn.Ok.reap (K : c.Ok input) (hpeer : c.peer = .zombie) :
    Conn.Ok input { c with peer := .reaped } := by
  have hflight : Conn.flight { c with peer := .reaped } = c.flight := by
    simp only [Conn.flight, hpeer, Peer.buf]
  have hended : c.peer.Ended := .inl hpeer
  exact {
    sublist := by rw [hflight]; exact K.sublist
    flight := by rw [hflight]; exact K.flight
    printed := K.printed
    shut := fun h => .inr ((K.shut h).resolve_left (by simp [hpeer]))
    unserved := by simp [Peer.Unserved]
    ended := fun _ => K.ended hended
    exited := fun h => ⟨(K.exited h).1, .inr (.inr rfl)⟩ }

end

/-! ### The server -/

section

variable {ι : Type*} [DecidableEq ι] {cap n : Nat} {s t : State ι cap} {input : ι → List UInt8}
  {i : ι} {c : Conn cap}

structure Inv (input : ι → List UInt8) (s : State ι cap) : Prop where
  conn : ∀ i, (s.conn i).Ok (input i)
  accepted : ∀ i, (s.conn i).peer = .accepted ↔ s.main = .fork i
  /-- A terminated child has been waited for, or will be. -/
  zombie : ∀ i, (s.conn i).peer = .zombie → s.sigchld = true ∨ s.handling = true

omit [DecidableEq ι] in
theorem inv_init : Inv input (State.init input : State ι cap) where
  conn _ := ok_init
  accepted _ := by simp [State.init, Conn.init]
  zombie _ h := by simp [State.init, Conn.init] at h

/-- A step of a process of one connection. -/
theorem Inv.setConn (I : Inv input s) (hok : c.Ok (input i))
    (hacc : c.peer = .accepted ↔ (s.conn i).peer = .accepted) {sigchld : Bool}
    (hsig : s.sigchld = true → sigchld = true)
    (hz : c.peer = .zombie → (s.conn i).peer = .zombie ∨ sigchld = true) :
    Inv input { s.setConn i c with sigchld := sigchld } where
  conn := forall_update (p := fun j (d : Conn cap) => d.Ok (input j)) hok I.conn
  accepted := forall_update
    (p := fun j (d : Conn cap) => d.peer = .accepted ↔ s.main = .fork j)
    (hacc.trans (I.accepted i)) I.accepted
  zombie := by
    refine forall_update
      (p := fun _ (d : Conn cap) => d.peer = .zombie → sigchld = true ∨ s.handling = true)
      (fun h => ?_) fun j h => (I.zombie j h).imp_left hsig
    exact (hz h).elim (fun h => (I.zombie i h).imp_left hsig) .inl

/-- A step of the server's loop. -/
theorem Inv.main (I : Inv input s) {a : Label ι} (hn : main s a = some t) : Inv input t := by
  cases a with
  | accept i =>
    simp only [IsEcho.main, Option.ite_none_right_eq_some, Option.some.injEq] at hn
    obtain ⟨⟨hmain, hpeer⟩, rfl⟩ := hn
    have hok := (I.conn i).setPeer (.inl hpeer) (.inl rfl)
    have hne : ∀ j, (s.conn j).peer ≠ .accepted := fun j h => by
      rw [I.accepted j, hmain] at h
      cases h
    refine ⟨forall_update (p := fun j (d : Conn cap) => d.Ok (input j)) hok I.conn, fun j => ?_,
      forall_update
        (p := fun _ (d : Conn cap) => d.peer = .zombie → s.sigchld = true ∨ s.handling = true)
        (fun h => by cases h) I.zombie⟩
    rcases eq_or_ne j i with rfl | hj
    · simp [State.setPeer, State.setConn]
    · simp [State.setPeer, State.setConn, update_of_ne hj, hne j, hj.symm]
  | fork ok =>
    simp only [IsEcho.main] at hn
    split at hn
    · next i hmain =>
      cases hn
      have hpeer := (I.accepted i).mpr hmain
      have hp : ∀ b : Bool, (if b then Peer.child [] else .gaveUp) ≠ .accepted ∧
          (if b then Peer.child [] else .gaveUp) ≠ .zombie := by simp [Bool.forall_bool]
      have hok := (I.conn i).setPeer (p := if ok then .child [] else .gaveUp) (.inr hpeer)
        (by cases ok <;> simp)
      refine ⟨forall_update (p := fun j (d : Conn cap) => d.Ok (input j)) hok I.conn, fun j => ?_,
        forall_update
          (p := fun _ (d : Conn cap) => d.peer = .zombie → s.sigchld = true ∨ s.handling = true)
          (fun h => absurd h (hp ok).2) I.zombie⟩
      refine ⟨fun h => absurd h ?_, fun h => by cases h⟩
      rcases eq_or_ne j i with rfl | hj
      · simpa [State.setPeer, State.setConn] using (hp ok).1
      · simp only [State.setPeer, State.setConn, update_of_ne hj, I.accepted j, hmain]
        exact fun h => hj (Main.fork.inj h).symm
    · cases hn
  | close =>
    simp only [IsEcho.main] at hn
    split at hn
    · next i hmain =>
      cases hn
      exact { I with accepted := fun j => by rw [I.accepted j, hmain]; simp }
    · cases hn
  | _ => cases hn

variable [Fintype ι]

theorem Inv.step {a : Label ι} (I : Inv input s) (hn : machine.next s a = some t) :
    Inv input t := by
  cases a with
  | client i n =>
    obtain ⟨c, hc, rfl⟩ := Option.map_eq_some_iff.mp hn
    have hpeer : c.peer = (s.conn i).peer := by
      obtain ⟨-, ⟨-, rfl⟩ | ⟨_, _, -, -, -, rfl⟩ | ⟨_, _, -, rfl⟩⟩ := client_cases hc <;> rfl
    exact I.setConn ((I.conn i).client hc) (by rw [hpeer]) id fun h => .inl (hpeer ▸ h)
  | clientChild i n =>
    obtain ⟨c, hc, rfl⟩ := Option.map_eq_some_iff.mp hn
    have hpeer : c.peer = (s.conn i).peer := by
      obtain ⟨-, ⟨-, -, rfl⟩ | ⟨_, _, -, rfl⟩⟩ := clientChild_cases hc <;> rfl
    have hok := (I.conn i).clientChild (fun h => h.1) hc
    exact I.setConn hok (by rw [hpeer]) id fun h => .inl (hpeer ▸ h)
  | handleRequest i n =>
    obtain ⟨c, hc, rfl⟩ := Option.map_eq_some_iff.mp hn
    have hacc : c.peer ≠ .accepted ∧ (s.conn i).peer ≠ .accepted := by
      obtain ⟨hp, -, -, rfl⟩ | ⟨_, _, hp, -, rfl⟩ | ⟨_, _, _, hp, -, rfl⟩ :=
        handleRequest_cases hc <;> simp [hp]
    exact I.setConn ((I.conn i).handleRequest hc) (by simp [hacc]) (by simp_all) (by simp_all)
  | grimReaper =>
    simp only [machine, IsEcho.step, Option.ite_none_right_eq_some, Option.some.injEq] at hn
    obtain ⟨-, rfl⟩ := hn
    exact { I with zombie := fun _ _ => .inr rfl }
  | waitpid i =>
    cases i with
    | some i =>
      simp only [machine, IsEcho.step, Option.ite_none_right_eq_some, Option.some.injEq] at hn
      obtain ⟨⟨-, hpeer⟩, rfl⟩ := hn
      exact I.setConn ((I.conn i).reap hpeer) (by simp [hpeer]) id (by simp)
    | none =>
      simp only [machine, IsEcho.step, Option.ite_none_right_eq_some, Option.some.injEq] at hn
      obtain ⟨⟨-, hpeer⟩, rfl⟩ := hn
      exact { I with zombie := fun j h => absurd h (hpeer j) }
  | _ =>
    simp only [machine, IsEcho.step, Option.ite_none_left_eq_some] at hn
    exact I.main hn.2

theorem Inv.reachable (h : machine.Reachable (State.init input) s) : Inv input s :=
  h.invariant inv_init fun _ _ _ I _ hn => I.step hn

/-! ### The steps that are left -/

def Peer.rank : Peer → Nat
  | .backlog => 9
  | .accepted => 6
  | .gaveUp => 0
  | .child _ => 5
  | .zombie => 1
  | .reaped => 0

def Main.rank : Main ι → Nat
  | .accept => 0
  | .fork _ => 2
  | .close _ => 1

/-- A byte is moved five times. -/
def Conn.rank (c : Conn cap) : Nat :=
  5 * c.stdin.length + 4 * c.buf.length + 3 * c.up.buf.length + 2 * c.peer.buf.length +
    c.down.buf.length + (!c.shut).toNat + (!c.exited).toNat + c.peer.rank

def State.rank (s : State ι cap) : Nat :=
  tally (fun _ => Conn.rank) s.conn + s.main.rank + 2 * s.sigchld.toNat + s.handling.toNat

omit [DecidableEq ι] [Fintype ι] in
theorem rank_client {c c' : Conn cap} {closed : Prop} [Decidable closed]
    (hn : c.client closed n = some c') : c'.rank < c.rank := by
  obtain ⟨hshut, ⟨-, rfl⟩ | ⟨buf, stdin, hbuf, heq, hlt, rfl⟩ | ⟨up, buf, hput, rfl⟩⟩ :=
    client_cases hn
  · simp only [Conn.rank, hshut, Bool.not_true, Bool.not_false, Bool.toNat_true, Bool.toNat_false]
    omega
  · have hlen := congrArg List.length heq
    rw [List.length_append] at hlen
    simp only [Conn.rank, hbuf, List.length_nil]
    omega
  · obtain ⟨hpos, -, hlen, hup⟩ := Stream.of_put hput
    simp only [Conn.rank]
    omega

omit [DecidableEq ι] [Fintype ι] in
theorem rank_clientChild {c c' : Conn cap} {closed : Prop} [Decidable closed]
    (hn : c.clientChild closed n = some c') : c'.rank < c.rank := by
  obtain ⟨hexited, ⟨-, -, rfl⟩ | ⟨got, down, hget, rfl⟩⟩ := clientChild_cases hn
  · simp only [Conn.rank, hexited, Bool.not_true, Bool.not_false, Bool.toNat_true,
      Bool.toNat_false]
    omega
  · obtain ⟨hpos, -, -, hlen⟩ := Stream.of_get hget
    simp only [Conn.rank]
    omega

omit [DecidableEq ι] [Fintype ι] in
/-- The last step of a child leaves room for the handler. -/
theorem rank_handleRequest {c c' : Conn cap} (hn : c.handleRequest n = some c') :
    c'.rank + 3 * (decide (c'.peer = .zombie)).toNat < c.rank := by
  obtain ⟨hpeer, -, -, rfl⟩ | ⟨got, up, hpeer, hget, rfl⟩ | ⟨buf, down, rest, hpeer, hput, rfl⟩ :=
    handleRequest_cases hn
  · simp only [Conn.rank, hpeer, Peer.buf, Peer.rank, decide_true, Bool.toNat_true]
    omega
  · obtain ⟨hpos, -, hgot, hlen⟩ := Stream.of_get hget
    simp only [Conn.rank, hpeer, Peer.buf, Peer.rank, reduceCtorEq, decide_false,
      Bool.toNat_false, List.length_nil]
    omega
  · obtain ⟨hpos, -, hrest, hlen⟩ := Stream.of_put hput
    simp only [Conn.rank, hpeer, Peer.buf, Peer.rank, reduceCtorEq, decide_false,
      Bool.toNat_false]
    omega

theorem rank_setConn (s : State ι cap) (i : ι) (c : Conn cap) :
    tally (fun _ => Conn.rank) (s.setConn i c).conn + (s.conn i).rank =
      tally (fun _ => Conn.rank) s.conn + c.rank :=
  tally_update (fun _ => Conn.rank) s.conn i c

theorem rank_main {a : Label ι} (I : Inv input s) (hn : main s a = some t) : t.rank < s.rank := by
  cases a with
  | accept i =>
    simp only [main, Option.ite_none_right_eq_some, Option.some.injEq] at hn
    obtain ⟨⟨hmain, hpeer⟩, rfl⟩ := hn
    have htally := rank_setConn s i { s.conn i with peer := .accepted }
    simp only [Conn.rank, hpeer, Peer.buf, Peer.rank] at htally
    simp only [State.rank, State.setPeer, hmain, Main.rank]
    simp only [State.setConn] at htally ⊢
    omega
  | fork ok =>
    simp only [main] at hn
    split at hn
    · next i hmain =>
      cases hn
      have hpeer := (I.accepted i).mpr hmain
      have htally := rank_setConn s i
        { s.conn i with peer := if ok then .child [] else .gaveUp }
      have hle : (if ok then Peer.child [] else .gaveUp).rank ≤ 5 ∧
          (if ok then Peer.child [] else .gaveUp).buf.length = 0 := by
        cases ok <;> simp [Peer.rank, Peer.buf]
      simp only [Conn.rank, hpeer, hle.2] at htally
      simp only [Peer.buf, Peer.rank, List.length_nil] at htally hle
      simp only [State.rank, State.setPeer, hmain, Main.rank]
      simp only [State.setConn] at htally ⊢
      omega
    · cases hn
  | close =>
    simp only [main] at hn
    split at hn
    · next i hmain =>
      cases hn
      simp only [State.rank, hmain, Main.rank]
      omega
    · cases hn
  | _ => cases hn

theorem rank_step {a : Label ι} (I : Inv input s) (hn : machine.next s a = some t) :
    t.rank < s.rank := by
  cases a with
  | client i n =>
    obtain ⟨c, hc, rfl⟩ := Option.map_eq_some_iff.mp hn
    have htally := rank_setConn s i c
    have hlt := rank_client hc
    simp only [State.rank, State.setConn] at htally ⊢
    omega
  | clientChild i n =>
    obtain ⟨c, hc, rfl⟩ := Option.map_eq_some_iff.mp hn
    have htally := rank_setConn s i c
    have hlt := rank_clientChild hc
    simp only [State.rank, State.setConn] at htally ⊢
    omega
  | handleRequest i n =>
    obtain ⟨c, hc, rfl⟩ := Option.map_eq_some_iff.mp hn
    have htally := rank_setConn s i c
    have hlt := rank_handleRequest hc
    have hor : (s.sigchld || decide (c.peer = .zombie)).toNat ≤
        s.sigchld.toNat + (decide (c.peer = .zombie)).toNat := by
      cases s.sigchld <;> cases decide (c.peer = .zombie) <;> decide
    simp only [State.rank, State.setConn] at htally ⊢
    omega
  | grimReaper =>
    simp only [machine, step, Option.ite_none_right_eq_some, Option.some.injEq] at hn
    obtain ⟨⟨hsig, hh⟩, rfl⟩ := hn
    simp only [State.rank, hsig, Bool.eq_false_iff.mpr hh, Bool.toNat_true, Bool.toNat_false]
    omega
  | waitpid i =>
    cases i with
    | some i =>
      simp only [machine, step, Option.ite_none_right_eq_some, Option.some.injEq] at hn
      obtain ⟨⟨-, hpeer⟩, rfl⟩ := hn
      have htally := rank_setConn s i { s.conn i with peer := .reaped }
      simp only [Conn.rank, hpeer, Peer.buf, Peer.rank] at htally
      simp only [State.rank, State.setPeer]
      simp only [State.setConn] at htally ⊢
      omega
    | none =>
      simp only [machine, step, Option.ite_none_right_eq_some, Option.some.injEq] at hn
      obtain ⟨⟨hh, -⟩, rfl⟩ := hn
      simp only [State.rank, hh, Bool.toNat_true, Bool.toNat_false]
      omega
  | _ =>
    simp only [machine, step, Option.ite_none_left_eq_some] at hn
    exact rank_main I hn.2

end

/-! ### Who waits for whom -/

section

variable {cap : Nat} {c : Conn cap} {closed : Prop} [Decidable closed]

/-- The client's parent waits for room only. -/
theorem client_waits (hnone : ∀ n, c.client closed n = none) (hshut : c.shut = false) :
    c.buf ≠ [] ∧ cap ≤ c.up.buf.length ∧ ¬(c.peer = .gaveUp ∧ closed) := by
  have h0 := hnone 0
  have h1 := hnone 1
  rw [Conn.client, if_neg (by simp [hshut])] at h0 h1
  rcases eq_or_ne c.buf [] with hbuf | hbuf
  · rw [if_pos hbuf] at h0 h1
    cases hstdin : c.stdin with
    | nil =>
      rw [if_pos rfl, if_pos hstdin] at h0
      cases h0
    | cons b stdin =>
      rw [if_neg Nat.one_ne_zero, if_pos ⟨by decide, by simp [hstdin]⟩] at h1
      cases h1
  · rw [if_neg hbuf] at h0 h1
    refine ⟨hbuf, Nat.le_of_not_lt fun hlt => ?_, fun h => ?_⟩
    · obtain ⟨r, hr⟩ := Stream.exists_put hlt hbuf
      rw [if_neg Nat.one_ne_zero, hr] at h1
      cases h1
    · rw [if_pos rfl, if_pos h] at h0
      cases h0

/-- The client's child waits for data or the end only. -/
theorem clientChild_waits (hnone : ∀ n, c.clientChild closed n = none)
    (hexited : c.exited = false) : c.down.buf = [] ∧ ¬closed := by
  have h0 := hnone 0
  have h1 := hnone 1
  rw [Conn.clientChild, if_neg (by simp [hexited])] at h0 h1
  have hdown : c.down.buf = [] := by
    by_contra hne
    obtain ⟨r, hr⟩ := Stream.exists_get hne
    rw [if_neg Nat.one_ne_zero, if_pos (by decide), hr] at h1
    cases h1
  refine ⟨hdown, fun h => ?_⟩
  rw [if_pos rfl, if_pos ⟨hdown, h⟩] at h0
  cases h0

/-- The server's child waits for data, the end or room only. -/
theorem handleRequest_waits (hnone : ∀ n, c.handleRequest n = none) {buf : List UInt8}
    (hpeer : c.peer = .child buf) :
    c.up.buf = [] ∧ c.shut = false ∨ cap ≤ c.down.buf.length := by
  have h0 := hnone 0
  have h1 := hnone 1
  rw [Conn.handleRequest, hpeer] at h0 h1
  cases buf with
  | nil =>
    have hup : c.up.buf = [] := by
      by_contra hne
      obtain ⟨r, hr⟩ := Stream.exists_get hne
      simp [hr, Sv.BUF_SIZE] at h1
    simp only [↓reduceIte, hup, true_and, ite_eq_right_iff, reduceCtorEq, imp_false] at h0
    exact .inl ⟨hup, Bool.eq_false_iff.mpr h0⟩
  | cons b buf =>
    refine .inr (Nat.le_of_not_lt fun hlt => ?_)
    obtain ⟨r, hr⟩ := Stream.exists_put hlt (List.cons_ne_nil b buf)
    simp only [hr, Option.map_some] at h1
    cases h1

end

/-! ### The runs -/

/-- Both processes of the client have terminated. All of the input has been printed, if it has no
null bytes, unless the server gave up. -/
structure Conn.Finished {cap : Nat} (input : List UInt8) (c : Conn cap) : Prop where
  shut : c.shut = true
  exited : c.exited = true
  printed : c.peer = .reaped ∧ (c.printed = input ↔ 0 ∉ input) ∨
    c.peer = .gaveUp ∧ c.printed = []

/-- The server waits for the next connection and has no terminated children left. -/
structure State.Finished {ι : Type*} {cap : Nat} (input : ι → List UInt8) (s : State ι cap) :
    Prop where
  main : s.main = .accept
  handling : s.handling = false
  conn : ∀ i, (s.conn i).Finished (input i)

section

variable {ι : Type*} [DecidableEq ι] [Fintype ι] {cap : Nat} {s : State ι cap}
  {input : ι → List UInt8} {i : ι}

/-- Nothing can move only after everything has been echoed. -/
theorem finished_of_stuck (I : Inv input s) (hcap : 0 < cap)
    (hstuck : ∀ a, machine.next s a = none) : s.Finished input := by
  have hclient : ∀ i n, (s.conn i).client (s.Closed i) n = none := fun i n =>
    Option.map_eq_none_iff.mp (hstuck (.client i n))
  have hchild : ∀ i n, (s.conn i).clientChild (s.Closed i) n = none := fun i n =>
    Option.map_eq_none_iff.mp (hstuck (.clientChild i n))
  have hserver : ∀ i n, (s.conn i).handleRequest n = none := fun i n =>
    Option.map_eq_none_iff.mp (hstuck (.handleRequest i n))
  have hhandling : s.handling = false := by
    refine Bool.eq_false_iff.mpr fun hh => ?_
    have hnone := hstuck (.waitpid none)
    simp only [machine, step, hh, true_and, ite_eq_right_iff, reduceCtorEq, imp_false, not_forall,
      not_not] at hnone
    obtain ⟨i, hi⟩ := hnone
    have hsome := hstuck (.waitpid (some i))
    simp [machine, step, hh, hi] at hsome
  have hsigchld : s.sigchld = false := by
    refine Bool.eq_false_iff.mpr fun hs => ?_
    have hnone := hstuck .grimReaper
    simp [machine, step, hs, hhandling] at hnone
  have hmain : s.main = .accept := by
    cases hm : s.main with
    | accept => rfl
    | fork i => simpa [machine, step, hhandling, main, hm] using hstuck (.fork true)
    | close i => simpa [machine, step, hhandling, main, hm] using hstuck .close
  refine ⟨hmain, hhandling, fun i => ?_⟩
  have K := I.conn i
  have hclosed : ∀ {p : Peer}, (s.conn i).peer = p → (p = .gaveUp ∨ p = .zombie ∨ p = .reaped) →
      s.Closed i := by
    intro p hp h
    exact ⟨by rwa [hp], by rw [hmain]; exact fun h => by cases h⟩
  -- the peer first: the processes of a connection end in the order of the data
  cases hpeer : (s.conn i).peer with
  | backlog =>
    have hnone := hstuck (.accept i)
    simp [machine, step, main, hhandling, hmain, hpeer] at hnone
  | accepted =>
    rw [I.accepted i, hmain] at hpeer
    cases hpeer
  | zombie => exact absurd (I.zombie i hpeer) (by simp [hsigchld, hhandling])
  | child buf =>
    have hexited : (s.conn i).exited = false := Bool.eq_false_iff.mpr fun h =>
      absurd (K.exited h).2 (by simp [hpeer, Peer.Ended])
    have hdown := (clientChild_waits (hchild i) hexited).1
    rcases handleRequest_waits (hserver i) hpeer with ⟨hup, hshut⟩ | hfull
    · have hfull := (client_waits (hclient i) hshut).2.1
      rw [hup, List.length_nil] at hfull
      omega
    · rw [hdown, List.length_nil] at hfull
      omega
  | gaveUp =>
    have hc := hclosed hpeer (.inl rfl)
    have hshut : (s.conn i).shut = true := by
      by_contra h
      exact (client_waits (hclient i) (Bool.eq_false_iff.mpr h)).2.2 ⟨hpeer, hc⟩
    have hexited : (s.conn i).exited = true := by
      by_contra h
      exact (clientChild_waits (hchild i) (Bool.eq_false_iff.mpr h)).2 hc
    exact ⟨hshut, hexited, .inr ⟨hpeer, (K.unserved (.inr (.inr hpeer))).2⟩⟩
  | reaped =>
    have hc := hclosed hpeer (.inr (.inr rfl))
    obtain ⟨hshut, hup⟩ := K.ended (.inr hpeer)
    have hexited : (s.conn i).exited = true := by
      by_contra h
      exact (clientChild_waits (hchild i) (Bool.eq_false_iff.mpr h)).2 hc
    obtain ⟨hbuf, hstdin⟩ := (K.shut hshut).resolve_left (by simp [hpeer])
    have hflight : (s.conn i).flight = [] := by
      simp [Conn.flight, (K.exited hexited).1, hpeer, Peer.buf, hup, hbuf, hstdin]
    refine ⟨hshut, hexited, .inl ⟨hpeer, fun heq => heq ▸ K.printed, fun h0 => ?_⟩⟩
    simpa [hflight] using K.flight h0

/-- However the processes and the data move, what a client has printed is a prefix of its input, and
every run ends with all input echoed, except to clients that the server gave up. -/
theorem all_echoed (input : ι → List UInt8) (hcap : 0 < cap) :
    (∀ s : State ι cap, machine.Reachable (State.init input) s → ∀ i, 0 ∉ input i →
        (s.conn i).printed <+: input i) ∧
      machine.EndsWithin (State.init input : State ι cap) (State.init input : State ι cap).rank
        (State.Finished input) := by
  refine ⟨fun s hs i h0 => ⟨_, ((Inv.reachable hs).conn i).flight h0⟩, ?_⟩
  refine Machine.EndsWithin.of_rank (fun _ _ _ I hn => Inv.step I hn)
    (fun _ _ _ I hn => rank_step I hn) (fun s I => ?_) inv_init
  rw [or_iff_not_imp_left]
  intro hnone
  refine finished_of_stuck I hcap fun a => ?_
  cases h : machine.next s a with
  | none => rfl
  | some t => exact absurd ⟨a, t, h⟩ hnone

theorem all_echoed_two :
    (machine : Machine (State (Fin 2) 1) (Label (Fin 2))).EndsWithin
      (.init fun i => if i = 0 then [104, 105] else []) 32
      (State.Finished fun i => if i = 0 then [104, 105] else []) :=
  (all_echoed _ Nat.one_pos).2

end

end Tlpi.IsEcho
