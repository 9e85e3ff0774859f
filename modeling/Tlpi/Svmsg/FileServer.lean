import Mathlib.Logic.Function.Basic
import Tlpi.Lib.Machine
import Tlpi.Lib.CInt

/-!
# The message-queue file server (`svmsg/svmsg_file_server.c`, `svmsg/svmsg_file_client.c`)

The server, its forked children and any number of clients as one machine over System V message
queues. A queue is a list of messages, oldest first (every `msgrcv` here asks for type 0, the
first message). Sending never fails while the queue exists; a full queue only delays the sender,
which the interleaving already allows.
-/

namespace Tlpi.SvmsgFile

def PATH_MAX : Nat := 4096

/-- Maximum size of the `mtext` part of a response. -/
def RESP_MSG_SIZE : Nat := 8192

/-- The types of response messages (`RESP_MT_*`): the file couldn't be opened, the message contains
file data, the file data is complete. -/
inductive RespType
  | failure
  | data
  | eof
  deriving DecidableEq, Repr

/-- Responses (server to client): the type and the `msgsz` bytes of text. -/
structure ResponseMsg where
  mtype : RespType
  data : List UInt8
  deriving DecidableEq, Repr

/-- Requests (client to server): the client's message queue and the file to be returned. -/
structure RequestMsg where
  clientId : Nat
  pathname : List UInt8
  deriving DecidableEq, Repr

/-- The content of a file; its size is an `off_t`. -/
structure File where
  content : List UInt8
  size_lt : content.length < 2 ^ 63

/-- The files that the server can open. -/
abbrev Fs := List UInt8 → Option File

/-- "Couldn't open" and its null byte. -/
def failureText : List UInt8 :=
  [67, 111, 117, 108, 100, 110, 39, 116, 32, 111, 112, 101, 110, 0]

/-- A child of the server that executes `serveRequest`, by the system call that comes next; `unused`
is a child not yet forked. `rest` is the part of the file after the file offset. -/
inductive Child
  | unused
  | opening (req : RequestMsg)
  | sendFailure (req : RequestMsg)
  | reading (req : RequestMsg) (rest : List UInt8)
  | sendData (req : RequestMsg) (chunk rest : List UInt8)
  | sendEnd (req : RequestMsg)
  | exited
  deriving DecidableEq, Repr

/-- The position of a client: before it starts, at its `msgsnd`, at the first `msgrcv`, at the
`msgrcv` of the loop, and at `exit`, which calls `removeQueue`. -/
inductive ClientPc
  | idle
  | request
  | first
  | loop
  | exit
  | exited
  deriving DecidableEq, Repr

/-- What a client prints: the text of a failure, or the numbers of bytes and messages received. -/
inductive Output
  | failure (text : List UInt8)
  | received (totBytes numMsgs : Int)
  deriving DecidableEq, Repr

/-- A client that was started for `pathname`, with its variables and the messages received so far. -/
structure Client where
  pc : ClientPc
  pathname : List UInt8
  clientId : Nat
  totBytes : Int
  numMsgs : Int
  output : Option Output
  received : List ResponseMsg
  deriving DecidableEq, Repr

/-- The server's queue, the clients' private queues by identifier, and the processes. -/
structure State where
  serverQ : List RequestMsg
  queue : Nat → Option (List ResponseMsg)
  client : Nat → Client
  child : Nat → Child

def initial : State where
  serverQ := []
  queue _ := none
  client _ := ⟨.idle, [], 0, 0, 0, none, []⟩
  child _ := .unused

/-- A step. `create i q path` starts client `i` on `path` and gives its private queue the
identifier `q`; `fork j` is the server's `msgrcv` and `fork`, with `j` the new child; `read j n`
is a `read` of the child `j` that returns `n` bytes. -/
inductive Label
  | create (i q : Nat) (path : List UInt8)
  | request (i : Nat)
  | fork (j : Nat)
  | openFile (j : Nat)
  | read (j n : Nat)
  | msgsnd (j : Nat)
  | msgrcv (i : Nat)
  | exit (i : Nat)
  deriving DecidableEq, Repr

namespace State

def setClient (s : State) (i : Nat) (c : Client) : State :=
  { s with client := Function.update s.client i c }

def setChild (s : State) (j : Nat) (c : Child) : State :=
  { s with child := Function.update s.child j c }

def setQueue (s : State) (q : Nat) (ms : Option (List ResponseMsg)) : State :=
  { s with queue := Function.update s.queue q ms }

/-- `msgsnd` to a client's queue: `none` when the queue does not exist. -/
def send (s : State) (q : Nat) (m : ResponseMsg) : Option State :=
  (s.queue q).map fun ms => s.setQueue q (some (ms ++ [m]))

end State

/-- Lines 43 to 58 of the client: the pathname must fit, and `IPC_PRIVATE` gives a queue with
an identifier that no other queue has. -/
def create (s : State) (i q : Nat) (path : List UInt8) : Option State :=
  if (s.client i).pc = .idle ∧ s.queue q = none ∧ path.length ≤ PATH_MAX - 1 then
    some ((s.setQueue q (some [])).setClient i
      { s.client i with pc := .request, pathname := path, clientId := q })
  else none

def request (s : State) (i : Nat) : Option State :=
  let c := s.client i
  if c.pc = .request then
    some { s.setClient i { c with pc := .first } with
      serverQ := s.serverQ ++ [⟨c.clientId, c.pathname⟩] }
  else none

def fork (s : State) (j : Nat) : Option State :=
  match s.serverQ, s.child j with
  | req :: rest, .unused => some { s.setChild j (.opening req) with serverQ := rest }
  | _, _ => none

def openFile (fs : Fs) (s : State) (j : Nat) : Option State :=
  match s.child j with
  | .opening req =>
    match fs req.pathname with
    | none => some (s.setChild j (.sendFailure req))
    | some file => some (s.setChild j (.reading req file.content))
  | _ => none

/-- The number of bytes that a `read` of up to `RESP_MSG_SIZE` bytes may return: none exactly at
the end of the file. -/
def ReadReturns (rest : List UInt8) (n : Nat) : Prop :=
  (n = 0 ∧ rest = []) ∨ (1 ≤ n ∧ n ≤ RESP_MSG_SIZE ∧ n ≤ rest.length)

instance (rest : List UInt8) (n : Nat) : Decidable (ReadReturns rest n) := by
  unfold ReadReturns; infer_instance

def read (s : State) (j n : Nat) : Option State :=
  match s.child j with
  | .reading req rest =>
    if ReadReturns rest n then
      some (s.setChild j (if n = 0 then .sendEnd req else .sendData req (rest.take n) (rest.drop n)))
    else none
  | _ => none

/-- The child's `msgsnd`. After a failed `msgsnd` of data the loop is left for the end message;
the result of the other two is not looked at. -/
def msgsnd (s : State) (j : Nat) : Option State :=
  match s.child j with
  | .sendFailure req =>
    some (((s.send req.clientId ⟨.failure, failureText⟩).getD s).setChild j .exited)
  | .sendData req chunk rest =>
    match s.send req.clientId ⟨.data, chunk⟩ with
    | some t => some (t.setChild j (.reading req rest))
    | none => some (s.setChild j (.sendEnd req))
  | .sendEnd req => some (((s.send req.clientId ⟨.eof, []⟩).getD s).setChild j .exited)
  | _ => none

/-- The client after the `msgrcv` of `m`: the branch on the first message, then the test of the
loop. -/
def Client.receive (c : Client) (m : ResponseMsg) : Client :=
  let c := { c with received := c.received ++ [m] }
  if c.pc = .first ∧ m.mtype = .failure then
    { c with output := some (.failure m.data), pc := .exit }
  else
    let totBytes : Int := if c.pc = .first then m.data.length else wrap 64 (c.totBytes + m.data.length)
    let numMsgs : Int := if c.pc = .first then 1 else wrap32 (c.numMsgs + 1)
    if m.mtype = .data then { c with totBytes, numMsgs, pc := .loop }
    else { c with totBytes, numMsgs, output := some (.received totBytes numMsgs), pc := .exit }

def msgrcv (s : State) (i : Nat) : Option State :=
  let c := s.client i
  if c.pc = .first ∨ c.pc = .loop then
    match s.queue c.clientId with
    | some (m :: ms) => some ((s.setQueue c.clientId (some ms)).setClient i (c.receive m))
    | _ => none
  else none

/-- `removeQueue`, and the end of the process. -/
def exit (s : State) (i : Nat) : Option State :=
  let c := s.client i
  if c.pc = .exit then
    some ((s.setQueue c.clientId none).setClient i { c with pc := .exited })
  else none

def machine (fs : Fs) : Machine State Label where
  next s
    | .create i q path => create s i q path
    | .request i => request s i
    | .fork j => fork s j
    | .openFile j => openFile fs s j
    | .read j n => read s j n
    | .msgsnd j => msgsnd s j
    | .msgrcv i => msgrcv s i
    | .exit i => exit s i

end Tlpi.SvmsgFile
