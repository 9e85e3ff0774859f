import Mathlib.Logic.Function.Basic
import Tlpi.Lib.Machine
import Tlpi.Lib.CInt

/-!
# The FIFO sequence-number service (`pipes/fifo_seqnum_server.c`, `pipes/fifo_seqnum_client.c`)

The server and its clients as one machine. A step is one system call; opening a FIFO takes two
steps when there is nobody at the other end yet. A client's FIFO is found by name, that is by PID,
and outlives a client that is killed. As in the kernel, an `open` counts as a reader or writer from
its start, waits until the count of opens at the other end changes, and the contents of a FIFO are
lost when nobody has it open.
-/

namespace Tlpi.FifoSeqnum

/-- `struct request`, and which client has sent it: processes that have had the same PID send equal
requests. -/
structure Request where
  pid : Nat
  seqLen : Nat
  sender : Nat
  deriving DecidableEq, Repr

/-- `struct response`, and whose request it answers. -/
structure Response where
  seqNum : Int
  replyTo : Nat
  deriving DecidableEq, Repr

/-- A FIFO in the filesystem: its name, the clients that have it open for reading, whether the
server has it open for writing, the numbers of opens so far, and the responses in it. -/
structure Fifo where
  pid : Nat
  readers : List Nat
  writer : Bool
  rCounter : Nat
  wCounter : Nat
  data : List Response
  deriving DecidableEq, Repr

inductive ClientPc
  | idle
  | mkfifo
  | openServer
  | request
  | openClient
  | openWait (wCounter : Nat)
  | read
  | exit
  | exited
  | dead
  deriving DecidableEq, Repr

/-- A client process; `resp` is the response it has read. -/
structure Client where
  pc : ClientPc
  pid : Nat
  seqLen : Nat
  clientFd : Option Nat
  resp : Option Response
  deriving DecidableEq, Repr

/-- The server's position, with the request it serves and the FIFO it has opened for it. -/
inductive ServerPc
  | read
  | open (req : Request)
  | openWait (req : Request) (fd rCounter : Nat)
  | write (req : Request) (fd : Nat)
  | close (req : Request) (fd : Nat)
  deriving DecidableEq, Repr

/-- `proc` is the kernel's process table, `path` the FIFO named after a PID, `inode` the FIFOs by
inode number, of which those from `nextInode` on are free. `allocated` adds up the lengths of the
sequences for which a response was written. -/
structure State where
  serverFifo : List Request
  server : ServerPc
  seqNum : Int
  client : Nat → Client
  proc : Nat → Option Nat
  path : Nat → Option Nat
  inode : Nat → Fifo
  nextInode : Nat
  allocated : Nat

def emptyFifo (pid : Nat) : Fifo := ⟨pid, [], false, 0, 0, []⟩

def initial : State where
  serverFifo := []
  server := .read
  seqNum := 0
  client _ := ⟨.idle, 0, 0, none, none⟩
  proc _ := none
  path _ := none
  inode _ := emptyFifo 0
  nextInode := 0
  allocated := 0

/-- `start i pid seqLen` creates client `i`; `fail i` is a system call of client `i` that fails;
`die i` is its end, by itself or by a signal. -/
inductive Label
  | start (i pid seqLen : Nat)
  | mkfifo (i : Nat)
  | openServer (i : Nat)
  | request (i : Nat)
  | openClient (i : Nat)
  | openDone (i : Nat)
  | read (i : Nat)
  | fail (i : Nat)
  | exit (i : Nat)
  | die (i : Nat)
  | serverRead
  | serverOpen
  | serverOpenDone
  | serverWrite
  | serverClose
  deriving DecidableEq, Repr

namespace State

def setClient (s : State) (i : Nat) (c : Client) : State :=
  { s with client := Function.update s.client i c }

def setInode (s : State) (k : Nat) (f : Fifo) : State :=
  { s with inode := Function.update s.inode k f }

end State

/-- The contents of a FIFO are lost when it is open nowhere. -/
def Fifo.release (f : Fifo) : Fifo := if f.readers = [] ∧ f.writer = false then { f with data := [] } else f

def start (s : State) (i pid seqLen : Nat) : Option State :=
  if (s.client i).pc = .idle ∧ s.proc pid = none ∧ 1 ≤ seqLen then
    some { s.setClient i ⟨.mkfifo, pid, seqLen, none, none⟩ with
      proc := Function.update s.proc pid (some i) }
  else none

/-- A FIFO that exists already is used as it is. -/
def mkfifo (s : State) (i : Nat) : Option State :=
  let c := s.client i
  if c.pc = .mkfifo then
    let s := s.setClient i { c with pc := .openServer }
    match s.path c.pid with
    | some _ => some s
    | none => some { s.setInode s.nextInode (emptyFifo c.pid) with
        path := Function.update s.path c.pid (some s.nextInode)
        nextInode := s.nextInode + 1 }
  else none

def openServer (s : State) (i : Nat) : Option State :=
  let c := s.client i
  if c.pc = .openServer then some (s.setClient i { c with pc := .request }) else none

def request (s : State) (i : Nat) : Option State :=
  let c := s.client i
  if c.pc = .request then
    some { s.setClient i { c with pc := .openClient } with
      serverFifo := s.serverFifo ++ [⟨c.pid, c.seqLen, i⟩] }
  else none

def openClient (s : State) (i : Nat) : Option State :=
  let c := s.client i
  if c.pc = .openClient then
    match s.path c.pid with
    | none => some (s.setClient i { c with pc := .exit })
    | some k =>
      let f := s.inode k
      some ((s.setInode k { f with readers := i :: f.readers, rCounter := f.rCounter + 1 }).setClient
        i { c with clientFd := some k, pc := if f.writer then .read else .openWait f.wCounter })
  else none

def openDone (s : State) (i : Nat) : Option State :=
  let c := s.client i
  match c.pc, c.clientFd with
  | .openWait n, some k =>
    if (s.inode k).wCounter ≠ n then some (s.setClient i { c with pc := .read }) else none
  | _, _ => none

/-- A `read` that finds nothing waits as long as there is a writer and fails otherwise. -/
def read (s : State) (i : Nat) : Option State :=
  let c := s.client i
  match c.pc, c.clientFd with
  | .read, some k =>
    let f := s.inode k
    match f.data with
    | v :: rest =>
      some ((s.setInode k { f with data := rest }).setClient i { c with resp := some v, pc := .exit })
    | [] => if f.writer then none else some (s.setClient i { c with pc := .exit })
  | _, _ => none

def fail (s : State) (i : Nat) : Option State :=
  let c := s.client i
  if c.pc = .openServer ∨ c.pc = .request ∨ c.pc = .openClient then
    some (s.setClient i { c with pc := .exit })
  else none

/-- `removeFifo` -/
def exit (s : State) (i : Nat) : Option State :=
  let c := s.client i
  if c.pc = .exit then
    some { s.setClient i { c with pc := .exited } with path := Function.update s.path c.pid none }
  else none

/-- The kernel closes the files of a process that ends. -/
def die (s : State) (i : Nat) : Option State :=
  let c := s.client i
  if c.pc ≠ .idle ∧ c.pc ≠ .dead then
    let s := { s.setClient i { c with pc := .dead, clientFd := none } with
      proc := Function.update s.proc c.pid none }
    match c.clientFd with
    | none => some s
    | some k =>
      let f := s.inode k
      some (s.setInode k { f with readers := f.readers.filter (· ≠ i) }.release)
  else none

def serverRead (s : State) : Option State :=
  match s.server, s.serverFifo with
  | .read, req :: rest => some { s with server := .open req, serverFifo := rest }
  | _, _ => none

def serverOpen (s : State) : Option State :=
  match s.server with
  | .open req =>
    match s.path req.pid with
    | none => some { s with server := .read }
    | some k =>
      let f := s.inode k
      some { s.setInode k { f with writer := true, wCounter := f.wCounter + 1 } with
        server := if f.readers = [] then .openWait req k f.rCounter else .write req k }
  | _ => none

def serverOpenDone (s : State) : Option State :=
  match s.server with
  | .openWait req k n =>
    if (s.inode k).rCounter ≠ n then some { s with server := .write req k } else none
  | _ => none

/-- Without a reader the `write` fails with `EPIPE`. -/
def serverWrite (s : State) : Option State :=
  match s.server with
  | .write req k =>
    let f := s.inode k
    let s := if f.readers = [] then s
      else s.setInode k { f with data := f.data ++ [⟨s.seqNum, req.sender⟩] }
    some { s with server := .close req k, allocated := s.allocated + req.seqLen }
  | _ => none

def serverClose (s : State) : Option State :=
  match s.server with
  | .close req k =>
    let f := s.inode k
    some { s.setInode k { f with writer := false }.release with
      server := .read, seqNum := wrap32 (s.seqNum + req.seqLen) }
  | _ => none

def machine : Machine State Label where
  next s
    | .start i pid seqLen => start s i pid seqLen
    | .mkfifo i => mkfifo s i
    | .openServer i => openServer s i
    | .request i => request s i
    | .openClient i => openClient s i
    | .openDone i => openDone s i
    | .read i => read s i
    | .fail i => fail s i
    | .exit i => exit s i
    | .die i => die s i
    | .serverRead => serverRead s
    | .serverOpen => serverOpen s
    | .serverOpenDone => serverOpenDone s
    | .serverWrite => serverWrite s
    | .serverClose => serverClose s

/-- The request that the server has taken from its FIFO and not finished with. -/
def ServerPc.req? : ServerPc → Option Request
  | .read => none
  | .open req | .openWait req _ _ | .write req _ | .close req _ => some req

/-- The requests that have been sent and are not finished. -/
def State.outstanding (s : State) : List Request := s.server.req?.toList ++ s.serverFifo

/-- The range `[seqNum, seqNum + seqLen)` of a client that has read its response. -/
def Client.range (c : Client) : Option (Set Int) :=
  c.resp.map fun v => { x | v.seqNum ≤ x ∧ x < v.seqNum + c.seqLen }

end Tlpi.FifoSeqnum
