import Tlpi.Lib.Machine
import Tlpi.Lib.CInt
import Tlpi.Svsem.BinarySems

/-!
# Transfer through shared memory (`svshm/svshm_xfr_writer.c`, `svshm/svshm_xfr_reader.c`)

The two processes as one machine. The writer's set-up (creating the semaphore set and the
segment) is done in the initial state; the reader starts from its first call. Each program
counter names the call or statement that the process executes next. The `read` into the segment
takes two steps, since the bytes arrive in `buf` before `cnt` is assigned.
-/

namespace Tlpi.SvshmXfr

/-- Writer has access to shared memory. -/
def WRITE_SEM : Fin 2 := 0
/-- Reader has access to shared memory. -/
def READ_SEM : Fin 2 := 1
/-- Size of transfer buffer. -/
def BUF_SIZE : Nat := 1024

/-- Program counter of the writer: lines 67 to 98 of `svshm_xfr_writer.c`. From `reserve` to `count`
it is in the loop; `storeCnt` assigns the result of `read` to `shmp->cnt`, `count` is the increment
of `xfrs` and `bytes`, and `lastReserve` is the `reserveSem` after the loop. -/
inductive WriterPc
  | reserve
  | read
  | storeCnt (numRead : Nat)
  | release
  | testEof
  | count
  | lastReserve
  | rmSem
  | detach
  | rmShm
  | exited
  deriving DecidableEq, Repr

/-- Program counter of the reader: lines 28 to 68 of `svshm_xfr_reader.c`. From `reserve` to
`release`, which is also the increment of `xfrs`, it is in the loop; `lastRelease` is the
`releaseSem` after it. `failed` is `errExit` for a call on an object that no longer exists. -/
inductive ReaderPc
  | semget
  | shmget
  | shmat
  | reserve
  | testEof
  | count
  | write
  | release
  | detach
  | lastRelease
  | exited
  | failed
  deriving DecidableEq, Repr

/-- The shared objects, of which `semSet` and `shmSeg` say whether they still exist, the contents of
the segment, and the variables of the two programs. `stdin` is what the writer has yet to read and
`stdout` what the reader has written. -/
structure State where
  sem : SemSet 2
  semSet : Bool
  shmSeg : Bool
  cnt : Int
  buf : List UInt8
  stdin : List UInt8
  wpc : WriterPc
  wbytes : Int
  wxfrs : Int
  rpc : ReaderPc
  rbytes : Int
  rxfrs : Int
  stdout : List UInt8

/-- A step: one process moves. `writerRead n` is a `read` that returns `n` bytes; the `Eintr`
steps are a `semop` that fails with `EINTR` inside `reserveSem`. -/
inductive Label
  | writer
  | writerRead (n : Nat)
  | writerEintr
  | reader
  | readerEintr
  deriving DecidableEq, Repr

/-- The number of bytes a `read` of up to `BUF_SIZE` bytes may return: none exactly at the end of
the input. -/
def ReadReturns (stdin : List UInt8) (n : Nat) : Prop :=
  (n = 0 ∧ stdin = []) ∨ (1 ≤ n ∧ n ≤ BUF_SIZE ∧ n ≤ stdin.length)

instance (stdin : List UInt8) (n : Nat) : Decidable (ReadReturns stdin n) := by
  unfold ReadReturns; infer_instance

/-- The writer's state after the `read` has put `n` bytes at the start of `shmp->buf`. -/
def writerRead (s : State) (n : Nat) : Option State :=
  match s.wpc with
  | .read =>
    if ReadReturns s.stdin n then
      some { s with
        buf := s.stdin.take n ++ s.buf.drop n
        stdin := s.stdin.drop n
        wpc := .storeCnt n }
    else none
  | _ => none

/-- A step of the writer other than its `read`. The removed semaphore set is never operated on
by the writer, so its calls do not test `semSet`. -/
def writer (s : State) : Option State :=
  match s.wpc with
  | .reserve => (s.sem.reserveSem WRITE_SEM).map fun sem => { s with sem, wpc := .read }
  | .read => none
  | .storeCnt n => some { s with cnt := n, wpc := .release }
  | .release => (s.sem.releaseSem READ_SEM).map fun sem => { s with sem, wpc := .testEof }
  | .testEof => some { s with wpc := if s.cnt = 0 then .lastReserve else .count }
  | .count => some { s with
      wxfrs := wrap32 (s.wxfrs + 1)
      wbytes := wrap32 (s.wbytes + s.cnt)
      wpc := .reserve }
  | .lastReserve => (s.sem.reserveSem WRITE_SEM).map fun sem => { s with sem, wpc := .rmSem }
  | .rmSem => some { s with semSet := false, wpc := .detach }
  | .detach => some { s with wpc := .rmShm }
  | .rmShm => some { s with shmSeg := false, wpc := .exited }
  | .exited => none

/-- A step of the reader. -/
def reader (s : State) : Option State :=
  match s.rpc with
  | .semget => some { s with rpc := if s.semSet then .shmget else .failed }
  | .shmget => some { s with rpc := if s.shmSeg then .shmat else .failed }
  | .shmat => some { s with rpc := if s.shmSeg then .reserve else .failed }
  | .reserve =>
    if s.semSet then
      (s.sem.reserveSem READ_SEM).map fun sem => { s with sem, rpc := .testEof }
    else some { s with rpc := .failed }
  | .testEof => some { s with rpc := if s.cnt = 0 then .detach else .count }
  | .count => some { s with rbytes := wrap32 (s.rbytes + s.cnt), rpc := .write }
  | .write => some { s with stdout := s.stdout ++ s.buf.take s.cnt.toNat, rpc := .release }
  | .release =>
    if s.semSet then
      (s.sem.releaseSem WRITE_SEM).map fun sem =>
        { s with sem, rxfrs := wrap32 (s.rxfrs + 1), rpc := .reserve }
    else some { s with rpc := .failed }
  | .detach => some { s with rpc := .lastRelease }
  | .lastRelease =>
    if s.semSet then
      (s.sem.releaseSem WRITE_SEM).map fun sem => { s with sem, rpc := .exited }
    else some { s with rpc := .failed }
  | .exited | .failed => none

def machine : Machine State Label where
  next s
    | .writer => writer s
    | .writerRead n => writerRead s n
    | .writerEintr => if s.wpc = .reserve ∨ s.wpc = .lastReserve then some s else none
    | .reader => reader s
    | .readerEintr => if s.rpc = .reserve then some s else none

/-- The state after the writer's set-up. Nothing is assumed about what the segment and the
semaphores held before it. -/
def initial (input : List UInt8) (sem : SemSet 2) (cnt : Int) (buf : List UInt8) : State where
  sem := (sem.initSemAvailable WRITE_SEM).initSemInUse READ_SEM
  semSet := true
  shmSeg := true
  cnt := cnt
  buf := buf
  stdin := input
  wpc := .reserve
  wbytes := 0
  wxfrs := 0
  rpc := .semget
  rbytes := 0
  rxfrs := 0
  stdout := []

/-- The writer is filling the segment: it has the write turn and has not yet given the reader
one. -/
def State.Filling (s : State) : Prop :=
  s.wpc = .read ∨ (∃ n, s.wpc = .storeCnt n) ∨ s.wpc = .release

/-- The reader is copying from the segment: it has the read turn and has not given it back. -/
def State.Copying (s : State) : Prop :=
  s.rpc = .testEof ∨ s.rpc = .count ∨ s.rpc = .write ∨ s.rpc = .release

end Tlpi.SvshmXfr
