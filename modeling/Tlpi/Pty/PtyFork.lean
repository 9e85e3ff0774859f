import Mathlib.Data.PNat.Notation
import Tlpi.Lib.CBuf
import Tlpi.Lib.FdTable

/-!
# Pseudoterminals (`pty/pty_master_open.c`, `pty/pty_fork.c`)

`ptyMasterOpen` opens a pseudoterminal master, and `ptyFork` makes a child with the slave as its
standard descriptors. Each call may fail, with an error of its own; `close()` never keeps a descriptor
open, but may change `errno`.
-/

namespace Tlpi.Pty

abbrev Errno := Nat

def EOVERFLOW : Errno := 75

def MAX_SNAME : Nat := 1000

/-- The name of a slave: a string without its terminator. -/
abbrev SlaveName := {s : List UInt8 // 0 ∉ s}

inductive File (α : Type) where
  | master
  /-- The terminal that `open()` finds at a path: the slave, if the path is its name. -/
  | tty (path : List UInt8)
  | other (x : α)
  deriving DecidableEq, Repr

/-- How the calls end, where `some e` is a failure with the error `e`. -/
structure Calls where
  posixOpenpt : Option Errno
  grantpt : Option Errno
  unlockpt : Option Errno
  ptsname : Except Errno SlaveName
  /-- The error with which `close()` fails, if it does. -/
  close : Option Errno
  /-- The process ID of the child. -/
  fork : Except Errno ℕ+
  setsid : Option Errno
  openSlave : Option Errno
  tiocsctty : Option Errno
  tcsetattr : Option Errno
  tiocswinsz : Option Errno
  dup2 : Nat → Option Errno

/-- The descriptors and `errno` of a process. -/
structure Proc (α : Type) where
  fds : FdTable (File α)
  errno : Errno

variable {α : Type}

namespace Proc

def fail (p : Proc α) (e : Errno) : Proc α := { p with errno := e }

def close (c : Calls) (p : Proc α) (fd : Nat) : Proc α :=
  ⟨p.fds.close fd, c.close.getD p.errno⟩

/-- `savedErrno = errno; close(fd); errno = savedErrno` -/
def closeSaving (c : Calls) (p : Proc α) (fd : Nat) : Proc α :=
  let savedErrno := p.errno
  { p.close c fd with errno := savedErrno }

end Proc

/-- The process afterwards, the buffer `slaveName` and the descriptor that is returned. -/
def ptyMasterOpen (c : Calls) (p : Proc α) (slaveName : List UInt8) (snLen : Nat) :
    Proc α × List UInt8 × Option Nat :=
  match c.posixOpenpt with
  | some e => (p.fail e, slaveName, none)
  | none =>
    let masterFd := p.fds.lowest
    let p := { p with fds := p.fds.alloc .master }
    match c.grantpt with
    | some e => ((p.fail e).closeSaving c masterFd, slaveName, none)
    | none =>
      match c.unlockpt with
      | some e => ((p.fail e).closeSaving c masterFd, slaveName, none)
      | none =>
        match c.ptsname with
        | .error e => ((p.fail e).closeSaving c masterFd, slaveName, none)
        | .ok name =>
          if name.1.length < snLen then (p, strncpy slaveName name.1 snLen, some masterFd)
          else ((p.close c masterFd).fail EOVERFLOW, slaveName, none)

/-- A child, and the message with which it terminates unless `ptyFork` returns in it. -/
structure Child (α : Type) where
  proc : Proc α
  errExit : Option String

/-- What `ptyFork` leaves: the parent, its result (`none` for -1), `*masterFd`, the buffer
`slaveName` (unless it is `NULL`), and the child. -/
structure Forked (α : Type) where
  parent : Proc α
  childPid : Option ℕ+
  masterFd : Int
  slaveName : Option (List UInt8)
  child : Option (Child α)

def STDIN_FILENO : Nat := 0
def STDOUT_FILENO : Nat := 1
def STDERR_FILENO : Nat := 2

/-- `dup2(slaveFd, fd)` -/
def Proc.dup2 (p : Proc α) (slaveFd fd : Nat) : Proc α :=
  if slaveFd = fd then p
  else
    match p.fds.get slaveFd with
    | none => p
    | some file => { p with fds := p.fds.put fd file }

/-- Make the slave the standard descriptors of the child. -/
def dupSlave (c : Calls) (p : Proc α) (slaveFd : Nat) : Child α :=
  match c.dup2 STDIN_FILENO with
  | some e => ⟨p.fail e, some "ptyFork:dup2-STDIN_FILENO"⟩
  | none =>
    let p := p.dup2 slaveFd STDIN_FILENO
    match c.dup2 STDOUT_FILENO with
    | some e => ⟨p.fail e, some "ptyFork:dup2-STDOUT_FILENO"⟩
    | none =>
      let p := p.dup2 slaveFd STDOUT_FILENO
      match c.dup2 STDERR_FILENO with
      | some e => ⟨p.fail e, some "ptyFork:dup2-STDERR_FILENO"⟩
      | none =>
        let p := p.dup2 slaveFd STDERR_FILENO
        if slaveFd > STDERR_FILENO then ⟨p.close c slaveFd, none⟩ else ⟨p, none⟩

/-- The child from `setsid()` on; `termios` and `ws` say that the arguments are not `NULL`. -/
def runChild (c : Calls) (p : Proc α) (slname : List UInt8) (mfd : Nat) (termios ws : Bool) :
    Child α :=
  match c.setsid with
  | some e => ⟨p.fail e, some "ptyFork:setsid"⟩
  | none =>
    let p := p.close c mfd
    match c.openSlave with
    | some e => ⟨p.fail e, some "ptyFork:open-slave"⟩
    | none =>
      let slaveFd := p.fds.lowest
      let p := { p with fds := p.fds.alloc (.tty (cstr slname)) }
      match c.tiocsctty with
      | some e => ⟨p.fail e, some "ptyFork:ioctl-TIOCSCTTY"⟩
      | none =>
        match if termios then c.tcsetattr else none with
        | some e => ⟨p.fail e, some "ptyFork:tcsetattr"⟩
        | none =>
          match if ws then c.tiocswinsz else none with
          | some e => ⟨p.fail e, some "ptyFork:ioctl-TIOCSWINSZ"⟩
          | none => dupSlave c p slaveFd

/-- `slname` is what the array of that name holds at first, `masterFd` what the argument of that
name points to. -/
def ptyFork (c : Calls) (p : Proc α) (slname : List UInt8) (masterFd : Int)
    (slaveName : Option (List UInt8)) (snLen : Nat) (termios ws : Bool) : Forked α :=
  match ptyMasterOpen c p slname MAX_SNAME with
  | (p, _, none) => ⟨p, none, masterFd, slaveName, none⟩
  | (p, slname, some mfd) =>
    -- return the slave's name to the caller, unless the buffer is too small
    if slaveName.isSome ∧ ¬(cstr slname).length < snLen then
      ⟨(p.close c mfd).fail EOVERFLOW, none, masterFd, slaveName, none⟩
    else
      let slaveName := slaveName.map fun buf => strncpy buf (cstr slname) snLen
      match c.fork with
      | .error e => ⟨(p.fail e).closeSaving c mfd, none, masterFd, slaveName, none⟩
      | .ok childPid =>
        ⟨p, some childPid, mfd, slaveName, some (runChild c p slname mfd termios ws)⟩

/-! ### What the caller is promised -/

/-- The error of the first step of `ptyMasterOpen` that fails. -/
def openError (c : Calls) (snLen : Nat) : Option Errno :=
  c.posixOpenpt <|> c.grantpt <|> c.unlockpt <|>
    match c.ptsname with
    | .error e => some e
    | .ok name => if name.1.length < snLen then none else some EOVERFLOW

/-- The error of the first step of `ptyFork` that fails in the parent. -/
def forkError (c : Calls) (wantsName : Bool) (snLen : Nat) : Option Errno :=
  openError c MAX_SNAME <|>
    (match c.ptsname with
    | .ok name => if wantsName ∧ ¬name.1.length < snLen then some EOVERFLOW else none
    | .error _ => none) <|>
    match c.fork with
    | .error e => some e
    | .ok _ => none

/-- The error of the first step of the child that fails. -/
def childError (c : Calls) (termios ws : Bool) : Option Errno :=
  c.setsid <|> c.openSlave <|> c.tiocsctty <|> (if termios then c.tcsetattr else none) <|>
    (if ws then c.tiocswinsz else none) <|> c.dup2 STDIN_FILENO <|> c.dup2 STDOUT_FILENO <|>
    c.dup2 STDERR_FILENO

/-- `ptyMasterOpen` fails if a step does, with its error and without a new descriptor; else the
master is the one new descriptor, and the buffer holds the name of the slave. -/
structure CleanOpen (c : Calls) (snLen : Nat) (p : Proc α)
    (r : Proc α × List UInt8 × Option Nat) : Prop where
  failure : ∀ e, openError c snLen = some e → r.2.2 = none ∧ r.1.errno = e ∧ p.fds.Same r.1.fds
  success : openError c snLen = none → ∃ fd name, r.2.2 = some fd ∧
    p.fds.Gains r.1.fds fd .master ∧ c.ptsname = .ok name ∧ cstr r.2.1 = name.1

/-- `ptyFork` fails if a step in the parent does, as `ptyMasterOpen` does and without a change to
`*masterFd`; else the parent has the master as its one new descriptor. The child, unless one of its
steps fails, has the slave as its standard descriptors and no other new one. -/
structure CleanFork (c : Calls) (p : Proc α) (masterFd : Int) (slaveName : Option (List UInt8))
    (snLen : Nat) (termios ws : Bool) (r : Forked α) : Prop where
  failure : ∀ e, forkError c slaveName.isSome snLen = some e → r.childPid = none ∧
    r.parent.errno = e ∧ p.fds.Same r.parent.fds ∧ r.masterFd = masterFd ∧ r.child = none
  success : forkError c slaveName.isSome snLen = none → ∃ pid mfd name ch, r.childPid = some pid ∧
    r.masterFd = (mfd : Nat) ∧ p.fds.Gains r.parent.fds mfd .master ∧ c.ptsname = .ok name ∧
    r.slaveName.map cstr = slaveName.map (fun _ => name.1) ∧ r.child = some ch
  child : ∀ ch, r.child = some ch → (ch.errExit = none ↔ childError c termios ws = none) ∧
    (ch.errExit = none → ∃ name, c.ptsname = .ok name ∧
      ∀ fd, ch.proc.fds.get fd = if fd ≤ 2 then some (.tty name.1) else p.fds.get fd)

theorem CleanOpen.of_error {c : Calls} {snLen : Nat} {p : Proc α} {e : Errno}
    {r : Proc α × List UInt8 × Option Nat} (he : openError c snLen = some e) (hret : r.2.2 = none)
    (herrno : r.1.errno = e) (hfds : p.fds.Same r.1.fds) : CleanOpen c snLen p r := by
  refine ⟨fun e' he' => ?_, fun hnone => ?_⟩
  · rw [he] at he'
    cases he'
    exact ⟨hret, herrno, hfds⟩
  · rw [he] at hnone
    cases hnone

theorem ptyMasterOpen_clean (c : Calls) (p : Proc α) (slaveName : List UInt8) (snLen : Nat) :
    CleanOpen c snLen p (ptyMasterOpen c p slaveName snLen) := by
  have hgain := p.fds.gains_alloc File.master
  unfold ptyMasterOpen
  cases ho : c.posixOpenpt with
  | some e => exact .of_error (e := e) (by simp [openError, ho]) rfl rfl .rfl
  | none =>
  cases hg : c.grantpt with
  | some e => exact .of_error (e := e) (by simp [openError, ho, hg]) rfl rfl hgain.close
  | none =>
  cases hu : c.unlockpt with
  | some e => exact .of_error (e := e) (by simp [openError, ho, hg, hu]) rfl rfl hgain.close
  | none =>
  cases hn : c.ptsname with
  | error e => exact .of_error (e := e) (by simp [openError, ho, hg, hu, hn]) rfl rfl hgain.close
  | ok name =>
    by_cases hlen : name.1.length < snLen
    · refine ⟨by simp [openError, ho, hg, hu, hn, hlen], fun _ => ?_⟩
      simp only [hlen, if_true]
      exact ⟨_, name, rfl, hgain, hn, cstr_strncpy name.2 hlen⟩
    · simp only [hlen, if_false]
      exact .of_error (e := EOVERFLOW) (by simp [openError, ho, hg, hu, hn, hlen]) rfl rfl
        hgain.close

/-! ### The child -/

theorem get_dup2 {p : Proc α} {slaveFd : Nat} {x : File α} (h : p.fds.get slaveFd = some x)
    (i fd : Nat) :
    (p.dup2 slaveFd i).fds.get fd = if fd = i then some x else p.fds.get fd := by
  unfold Proc.dup2
  split
  · next heq =>
    split
    · next hfd => rw [hfd, ← heq, h]
    · rfl
  · rw [h]
    exact p.fds.get_put i _ fd

/-- After the three calls the slave is the standard descriptors, and the rest is as it was. -/
theorem get_dup2_dup2_dup2 {p : Proc α} {slaveFd : Nat} {x : File α}
    (h : p.fds.get slaveFd = some x) (fd : Nat) :
    (((p.dup2 slaveFd STDIN_FILENO).dup2 slaveFd STDOUT_FILENO).dup2 slaveFd
      STDERR_FILENO).fds.get fd = if fd ≤ 2 then some x else p.fds.get fd := by
  have hkeep {q : Proc α} (hq : q.fds.get slaveFd = some x) (i : Nat) :
      (q.dup2 slaveFd i).fds.get slaveFd = some x := by
    rw [get_dup2 hq, hq, ite_self]
  have hin : STDIN_FILENO = 0 := rfl
  have hout : STDOUT_FILENO = 1 := rfl
  have herr : STDERR_FILENO = 2 := rfl
  rw [get_dup2 (hkeep (hkeep h _) _), get_dup2 (hkeep h _), get_dup2 h]
  split
  · next hfd => rw [if_pos (by omega)]
  split
  · next hfd => rw [if_pos (by omega)]
  split
  · next hfd => rw [if_pos (by omega)]
  · rw [if_neg (by omega)]

theorem dupSlave_errExit (c : Calls) (p : Proc α) (slaveFd : Nat) :
    (dupSlave c p slaveFd).errExit = none ↔
      (c.dup2 STDIN_FILENO <|> c.dup2 STDOUT_FILENO <|> c.dup2 STDERR_FILENO) = none := by
  unfold dupSlave
  cases c.dup2 STDIN_FILENO with
  | some e => simp
  | none =>
  cases c.dup2 STDOUT_FILENO with
  | some e => simp
  | none =>
  cases c.dup2 STDERR_FILENO with
  | some e => simp
  | none =>
    simp only
    split <;> simp

/-- The child has the slave as its standard descriptors, whichever number it was opened as. -/
theorem dupSlave_fds {c : Calls} {p : Proc α} {t : FdTable (File α)} {slaveFd : Nat} {x : File α}
    (h : t.Gains p.fds slaveFd x) (hret : (dupSlave c p slaveFd).errExit = none) (fd : Nat) :
    (dupSlave c p slaveFd).proc.fds.get fd = if fd ≤ 2 then some x else t.get fd := by
  have hslave : p.fds.get slaveFd = some x := by rw [h.2, if_pos rfl]
  have hdup := get_dup2_dup2_dup2 hslave
  simp only [dupSlave_errExit, Option.orElse_eq_orElse, Option.orElse_eq_or,
    Option.or_eq_none_iff] at hret
  obtain ⟨hin, hout, herr⟩ := hret
  simp only [dupSlave, hin, hout, herr]
  split
  · next hgt =>
    -- the descriptor that `open()` returned is closed again
    rw [Proc.close, FdTable.get_close, hdup]
    split
    · next hfd =>
      have hgt : ¬slaveFd ≤ 2 := not_le.mpr hgt
      rw [hfd, if_neg hgt, h.1]
    · next hfd => rw [h.2, if_neg hfd]
  · next hle =>
    rw [hdup]
    split
    · rfl
    · next hfd => rw [h.2, if_neg (by rintro rfl; exact hle (not_le.mp hfd))]

theorem runChild_errExit (c : Calls) (p : Proc α) (slname : List UInt8) (mfd : Nat)
    (termios ws : Bool) :
    (runChild c p slname mfd termios ws).errExit = none ↔ childError c termios ws = none := by
  unfold runChild childError
  cases c.setsid with
  | some e => simp
  | none =>
  cases c.openSlave with
  | some e => simp
  | none =>
  cases c.tiocsctty with
  | some e => simp
  | none =>
  cases (if termios then c.tcsetattr else none) with
  | some e => simp
  | none =>
  cases (if ws then c.tiocswinsz else none) with
  | some e => simp
  | none => simp [dupSlave_errExit]

theorem runChild_fds {c : Calls} {p : Proc α} {t : FdTable (File α)} {slname : List UInt8}
    {mfd : Nat} {termios ws : Bool} (h : t.Gains p.fds mfd .master)
    (hret : (runChild c p slname mfd termios ws).errExit = none) (fd : Nat) :
    (runChild c p slname mfd termios ws).proc.fds.get fd =
      if fd ≤ 2 then some (.tty (cstr slname)) else t.get fd := by
  have hopen := h.close.gains ((p.fds.close mfd).gains_alloc (.tty (cstr slname)))
  have herr := (runChild_errExit ..).mp hret
  simp only [childError, Option.orElse_eq_orElse, Option.orElse_eq_or,
    Option.or_eq_none_iff] at herr
  obtain ⟨hsid, hslave, hctty, hattr, hwin, -⟩ := herr
  simp only [runChild, hsid, hslave, hctty, hattr, hwin] at hret ⊢
  exact dupSlave_fds hopen hret fd

/-! ### The parent -/

theorem CleanFork.of_error {c : Calls} {p : Proc α} {masterFd : Int}
    {slaveName : Option (List UInt8)} {snLen : Nat} {termios ws : Bool} {e : Errno} {r : Forked α}
    (he : forkError c slaveName.isSome snLen = some e) (hpid : r.childPid = none)
    (herrno : r.parent.errno = e) (hfds : p.fds.Same r.parent.fds) (hmaster : r.masterFd = masterFd)
    (hchild : r.child = none) : CleanFork c p masterFd slaveName snLen termios ws r := by
  refine ⟨fun e' he' => ?_, fun hnone => ?_, fun ch hch => ?_⟩
  · rw [he] at he'
    cases he'
    exact ⟨hpid, herrno, hfds, hmaster, hchild⟩
  · rw [he] at hnone
    cases hnone
  · rw [hchild] at hch
    cases hch

theorem ptyFork_clean (c : Calls) (p : Proc α) (slname : List UInt8) (masterFd : Int)
    (slaveName : Option (List UInt8)) (snLen : Nat) (termios ws : Bool) :
    CleanFork c p masterFd slaveName snLen termios ws
      (ptyFork c p slname masterFd slaveName snLen termios ws) := by
  have hopen := ptyMasterOpen_clean c p slname MAX_SNAME
  unfold ptyFork
  generalize ptyMasterOpen c p slname MAX_SNAME = r at hopen
  obtain ⟨q, buf, mfd⟩ := r
  cases he : openError c MAX_SNAME with
  | some e =>
    obtain ⟨hmfd, herrno, hfds⟩ := hopen.failure e he
    cases hmfd
    exact .of_error (e := e) (by simp [forkError, he]) rfl herrno hfds rfl rfl
  | none =>
  obtain ⟨mfd, name, hmfd, hgain, hname, hbuf⟩ := hopen.success he
  cases hmfd
  dsimp only at hgain hbuf ⊢
  rw [hbuf]
  by_cases hover : slaveName.isSome ∧ ¬name.1.length < snLen
  · rw [if_pos hover]
    exact .of_error (e := EOVERFLOW) (by simp [forkError, he, hname, hover]) rfl rfl hgain.close rfl
      rfl
  rw [if_neg hover]
  cases hf : c.fork with
  | error e =>
    have herr : forkError c slaveName.isSome snLen = some e := by
      simp only [forkError, he, hname, hf, if_neg hover]
      rfl
    exact .of_error herr rfl rfl hgain.close rfl rfl
  | ok pid =>
    have hnone : forkError c slaveName.isSome snLen = none := by
      simp only [forkError, he, hname, hf, if_neg hover]
      rfl
    refine ⟨fun e he' => (by rw [hnone] at he'; cases he'), fun _ => ?_, fun ch hch => ?_⟩
    · refine ⟨pid, mfd, name, _, rfl, rfl, hgain, hname, ?_, rfl⟩
      cases slaveName with
      | none => rfl
      | some s =>
        have hlen : name.1.length < snLen := by simpa using hover
        simp [cstr_strncpy name.2 hlen]
    · cases hch
      refine ⟨runChild_errExit .., fun hret => ⟨name, hname, ?_⟩⟩
      rw [← hbuf]
      exact runChild_fds hgain hret

/-- Both functions are clean on every path. -/
theorem pty_clean (c : Calls) (p : Proc α) :
    (∀ slaveName snLen, CleanOpen c snLen p (ptyMasterOpen c p slaveName snLen)) ∧
    ∀ slname masterFd slaveName snLen termios ws,
      CleanFork c p masterFd slaveName snLen termios ws
        (ptyFork c p slname masterFd slaveName snLen termios ws) :=
  ⟨ptyMasterOpen_clean c p, ptyFork_clean c p⟩

end Tlpi.Pty
