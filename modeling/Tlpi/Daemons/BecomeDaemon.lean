import Tlpi.Lib.CInt
import Tlpi.Lib.FdTable

/-!
# Becoming a daemon (`daemons/become_daemon.c`)

`becomeDaemon` goes on in the child of a child of its caller: the first child makes a session, the
second one is not its leader, and is alone in it as soon as the first one has terminated and been
waited for. The standard descriptors are opened anew with the lowest free number, which `close()`
has made zero.
-/

namespace Tlpi.BecomeDaemon

/-- What the function looks at and changes in a process. -/
structure Process (α : Type) where
  pid : Nat
  pgid : Nat
  sid : Nat
  tty : Option Nat
  umask : Nat
  cwd : String
  fds : FdTable α

/-- The process that runs the function, those that have left it by `_exit()` and have perhaps not
been waited for yet, and all others. -/
structure System (α : Type) where
  self : Process α
  exiting : List (Process α)
  others : List (Process α)

/-- How the calls end. -/
structure Calls where
  /-- The process IDs of the children. -/
  fork : Option Nat
  forkAgain : Option Nat
  chdir : Bool
  sysconf : Int
  openNull : Bool
  dup2 : Nat → Bool

def BD_NO_CHDIR : BitVec 32 := 0o1
def BD_NO_CLOSE_FILES : BitVec 32 := 0o2
def BD_NO_REOPEN_STD_FDS : BitVec 32 := 0o4
def BD_NO_UMASK0 : BitVec 32 := 0o10

def BD_MAX_CLOSE : Int := 8192

def STDIN_FILENO : Nat := 0
def STDOUT_FILENO : Nat := 1
def STDERR_FILENO : Nat := 2

variable {α : Type}

namespace System

def processes (s : System α) : List (Process α) := s.self :: (s.exiting ++ s.others)

/-- The child goes on, and its parent calls `_exit(EXIT_SUCCESS)`. -/
def fork (s : System α) (child : Nat) : System α :=
  { s with self := { s.self with pid := child }, exiting := s.self :: s.exiting }

/-- The process with the ID has terminated and been waited for. -/
def reap (s : System α) (id : Nat) : System α :=
  { s with exiting := s.exiting.filter (·.pid ≠ id) }

/-- The leader of a process group cannot make a session. -/
def setsid (s : System α) : Option (System α) :=
  if ∃ p ∈ s.processes, p.pgid = s.self.pid then none
  else some { s with self := { s.self with pgid := s.self.pid, sid := s.self.pid, tty := none } }

end System

/-- `int maxfd` -/
def maxfd (c : Calls) : Int :=
  if wrap32 c.sysconf = -1 then BD_MAX_CLOSE else wrap32 c.sysconf

/-- `for (fd = 0; fd < maxfd; fd++) close(fd);` -/
def closeFiles (c : Calls) (t : FdTable α) : FdTable α :=
  (List.range (maxfd c).toNat).foldl FdTable.close t

def dup2 (c : Calls) (oldfd newfd : Nat) (t : FdTable α) : Option (FdTable α) :=
  if c.dup2 newfd then (t.get oldfd).map (t.put newfd) else none

/-- The last part of the function, with what it returns. -/
def reopenStdFds (devNull : α) (c : Calls) (t : FdTable α) : FdTable α × Int :=
  let t := t.close STDIN_FILENO
  if c.openNull then
    let fd := t.lowest
    let t := t.alloc devNull
    if fd ≠ STDIN_FILENO then (t, -1)
    else match dup2 c STDIN_FILENO STDOUT_FILENO t with
      | none => (t, -1)
      | some t =>
        match dup2 c STDIN_FILENO STDERR_FILENO t with
        | none => (t, -1)
        | some t => (t, 0)
  else (t, -1)

/-- The part behind the second `fork()`. -/
def detach (devNull : α) (flags : BitVec 32) (c : Calls) (p : Process α) : Process α × Int :=
  let p := if flags &&& BD_NO_UMASK0 = 0 then { p with umask := 0 } else p
  let p := if flags &&& BD_NO_CHDIR = 0 ∧ c.chdir then { p with cwd := "/" } else p
  let p := if flags &&& BD_NO_CLOSE_FILES = 0 then { p with fds := closeFiles c p.fds } else p
  if flags &&& BD_NO_REOPEN_STD_FDS = 0 then
    let r := reopenStdFds devNull c p.fds
    ({ p with fds := r.1 }, r.2)
  else (p, 0)

variable {s : System α}

/-! ### Descriptors -/

end Tlpi.BecomeDaemon
