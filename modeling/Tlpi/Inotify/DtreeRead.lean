import Tlpi.Lib.Machine
import Tlpi.Inotify.Dtree

/-!
# Reading events (`processInotifyEvents` of `inotify_dtree.c`)

The loop over the events of a buffer, with the two `read` calls. The buffer is modelled by its valid
bytes: a byte is the first byte of an event or a later byte of one, so an event that is not there as
a whole cannot be examined. The machine takes one call of `read` or of `processNextInotifyEvent` as
a step; a call that ends the program is not a step, and neither is a `read` that does not fit into
the buffer.
-/

namespace Tlpi.InotifyDtree

variable {κ : Type}

/-- A byte of the buffer. -/
inductive Cell
  | first (ev : Event)
  | rest
  deriving DecidableEq, Repr

def Event.cells (ev : Event) : List Cell := .first ev :: List.replicate (ev.size - 1) .rest

/-- The bytes of events in the order of the events. -/
def encode (evs : List Event) : List Cell := evs.flatMap Event.cells

/-- The event at an offset, if it is there as a whole. -/
def eventAt (buf : List Cell) (offset : Nat) : Option Event :=
  match buf[offset]? with
  | some (.first ev) => if offset + ev.size ≤ buf.length then some ev else none
  | _ => none

inductive ReaderPc
  | select
  | loop
  | secondaryRead
  deriving DecidableEq, Repr

/-- What a call of `processNextInotifyEvent` has done with the event it was given. -/
inductive Handing
  | single (ev : Event)
  | pair (ev nextEv : Event)
  | retry (ev : Event)
  | rebuilt (ev : Event)
  deriving DecidableEq, Repr

namespace Handing

/-- The event that was given to `processNextInotifyEvent`. -/
def event : Handing → Event
  | single ev | pair ev _ | retry ev | rebuilt ev => ev

/-- The events that the call has dealt with. -/
def consumed : Handing → List Event
  | single ev => [ev]
  | pair ev nextEv => [ev, nextEv]
  | retry _ => []
  | rebuilt ev => [ev]

def ofResult (ev : Event) (nextEv : Option Event) (evLen : Int) : Handing :=
  if evLen = -1 then retry ev
  else if evLen = ev.size then single ev
  else
    match nextEv with
    | some n => if evLen = (ev.size + n.size : Nat) then pair ev n else rebuilt ev
    | none => rebuilt ev

end Handing

/-- The variables of `processInotifyEvents`, with `evp` as an offset into `buf`. The last two are not
variables of the program: the events read in this call, and what was done with each event that was
given to `processNextInotifyEvent`. -/
structure Reader (κ : Type) where
  state : State κ
  readBufferSize : Int
  pc : ReaderPc
  buf : List Cell
  numRead : Int
  evp : Nat
  firstTry : Bool
  events : List Event
  handed : List Handing

/-- The results of the secondary read are new events, or `EINTR` when the alarm goes off. -/
inductive ReaderStep (κ : Type)
  | primaryRead (evs : List Event)
  | process
  | leave
  | secondaryRead (evs : List Event)
  | interrupted
  | command (input arg₀ : CString)
  | kernel (k : κ)

/-- A `read` of at most `cnt` bytes returns at least one whole event, whose name is at most
`NAME_MAX` bytes long with its padding. -/
def Readable (evs : List Event) (cnt : Int) : Prop :=
  evs ≠ [] ∧ (∀ ev ∈ evs, ev.len ≤ NAME_MAX + 1) ∧ ((encode evs).length : Int) ≤ cnt

instance (evs : List Event) (cnt : Int) : Decidable (Readable evs cnt) :=
  inferInstanceAs (Decidable (_ ∧ _ ∧ _))

namespace Reader

def primaryRead (m : Reader κ) (evs : List Event) : Option (Reader κ) :=
  let cnt := if 0 < m.readBufferSize then m.readBufferSize else INOTIFY_READ_BUF_LEN
  if m.pc = .select ∧ Readable evs cnt ∧ (encode evs).length ≤ INOTIFY_READ_BUF_LEN then
    some { m with
      pc := .loop
      buf := encode evs
      numRead := (encode evs).length
      evp := 0
      firstTry := true
      events := evs
      handed := [] }
  else none

/-- The event at `evp`, and the one behind it if this is before the end of the buffer. -/
def examine (m : Reader κ) : Option (Event × Option Event) := do
  let ev ← eventAt m.buf m.evp
  if ((m.evp + ev.size : Nat) : Int) < m.numRead then
    let nextEv ← eventAt m.buf (m.evp + ev.size)
    return (ev, some nextEv)
  else return (ev, none)

/-- The rest of the loop body, after `processNextInotifyEvent` has returned `evLen`. -/
def advance (m : Reader κ) (handing : Handing) (s : State κ) (evLen : Int) : Reader κ :=
  if 0 < evLen then { m with
    state := s
    handed := m.handed ++ [handing]
    evp := m.evp + evLen.toNat
    firstTry := true }
  else { m with
    state := s
    handed := m.handed ++ [handing]
    pc := .secondaryRead
    firstTry := false
    numRead := m.numRead - m.evp
    buf := (m.buf.drop m.evp).take (m.numRead - m.evp).toNat }

def process (K : Kernel κ) (m : Reader κ) : Option (Reader κ) :=
  if m.pc = .loop ∧ m.evp < m.numRead then
    m.examine.bind fun (ev, nextEv) =>
      (processNextInotifyEvent K m.state ev nextEv m.firstTry).toOption.map fun (s, evLen) =>
        m.advance (.ofResult ev nextEv evLen) s evLen
  else none

def leave (m : Reader κ) : Option (Reader κ) :=
  if m.pc = .loop ∧ m.numRead ≤ m.evp then some { m with pc := .select } else none

def secondaryRead (m : Reader κ) (evs : List Event) : Option (Reader κ) :=
  if m.pc = .secondaryRead ∧ Readable evs (INOTIFY_READ_BUF_LEN - m.numRead) then
    some { m with
      pc := .loop
      buf := m.buf.take m.numRead.toNat ++ encode evs
      numRead := m.numRead + (encode evs).length
      evp := 0
      events := m.events ++ evs }
  else none

/-- The secondary read fails with `EINTR`; `errno` is not -1, so its result is added all the same. -/
def interrupted (m : Reader κ) : Option (Reader κ) :=
  if m.pc = .secondaryRead then
    some { m with
      pc := .loop
      numRead := m.numRead + -1
      evp := 0 }
  else none

def command (K : Kernel κ) (m : Reader κ) (input arg₀ : CString) : Option (Reader κ) :=
  if m.pc = .select then
    (executeCommand K m.state input arg₀).toOption.map fun s => { m with state := s }
  else none

end Reader

def reader (K : Kernel κ) : Machine (Reader κ) (ReaderStep κ) where
  next m
    | .primaryRead evs => m.primaryRead evs
    | .process => m.process K
    | .leave => m.leave
    | .secondaryRead evs => m.secondaryRead evs
    | .interrupted => m.interrupted
    | .command input arg₀ => m.command K input arg₀
    | .kernel k => some { m with state := { m.state with kernel := k } }

end Tlpi.InotifyDtree
