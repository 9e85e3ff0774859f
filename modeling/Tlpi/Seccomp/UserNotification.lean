import Mathlib.Logic.Function.Basic
import Tlpi.Lib.CBuf
import Tlpi.Lib.Machine

/-!
# Handling seccomp notifications (`seccomp/seccomp_user_notification.c`)

Processes come and go, and a PID can be used again as soon as its process has terminated. A
`mkdir(2)` call of a process under the filter blocks it and makes a notification, whose ID is valid
until the call is answered or interrupted or the process terminates. The tracer handles one
notification at a time: it opens `/proc/PID/mem`, checks the ID, reads the pathname and creates
the directory. Reading the memory of a process that has terminated gives end-of-file.
-/

namespace Tlpi.UserNotification

open Function

/-- The identity of a process, which is never used again. -/
abbrev Proc := Nat

abbrev Pid := Nat

/-- A notification: `id`, `pid` and `data.args` of `struct seccomp_notif`, and the process that
issued it. -/
structure Notif where
  id : Nat
  pid : Pid
  pathname : Nat
  mode : Nat
  proc : Proc
  deriving DecidableEq

/-- The tracer's next system call. -/
inductive Pc
  /-- `SECCOMP_IOCTL_NOTIF_RECV` -/
  | recv
  /-- The delay, between its two checks of the ID. -/
  | delay
  /-- `open("/proc/PID/mem", O_RDONLY)` -/
  | opens
  /-- `checkNotificationIdIsValid(notifyFd, req->id, "post-open")` -/
  | check
  /-- `lseek`, then `read(procMem, path, sizeof(path))` -/
  | read
  /-- `mkdir`, if the pathname is in `/tmp` -/
  | act
  /-- `SECCOMP_IOCTL_NOTIF_SEND` -/
  | send
  /-- Terminated, with this message. -/
  | exited (msg : String)
  deriving DecidableEq

/-- A `mkdir` call of the tracer: its arguments, the notification that it handles, the process
whose memory was read, the bytes read, and whether the ID was valid after the `open`. -/
structure Mkdir where
  path : List UInt8
  mode : Nat
  req : Notif
  source : Proc
  got : List UInt8
  valid : Bool
  deriving DecidableEq

structure State where
  /-- The process that has a PID. -/
  table : Pid → Option Proc
  nextProc : Proc
  alive : Proc → Bool
  mem : Proc → Nat → Option UInt8
  /-- The notifications of calls that are still blocked. -/
  notifs : List Notif
  nextId : Nat
  pc : Pc
  req : Notif
  /-- The process that `procMem` refers to. -/
  procMem : Proc
  path : List UInt8
  /-- The outcome of the check after the `open`. -/
  valid : Bool
  /-- The bytes that the last `read` stored. -/
  got : List UInt8
  mkdirs : List Mkdir
  stderr : List String

inductive Label
  /-- A process with this PID and memory is created. -/
  | spawn (pid : Pid) (mem : Nat → Option UInt8)
  | terminate (pid : Pid)
  /-- A process changes its memory. -/
  | store (proc : Proc) (addr : Nat) (b : UInt8)
  /-- A process calls `mkdir(2)` under the filter. -/
  | syscall (pid : Pid) (pathname mode : Nat)
  /-- A signal handler interrupts the blocked call. -/
  | interrupt (id : Nat)
  /-- The tracer receives the notification at this place of the queue. -/
  | recv (k : Nat)
  /-- The tracer's next step; its `read` returns at most `len` bytes. -/
  | tracer (len : Nat)

def PATH_MAX : Nat := 4096

/-- `snprintf(path, sizeof(path), "/proc/%d/mem", pid)` -/
def procMemPath (pid : Pid) : List UInt8 :=
  (['/', 'p', 'r', 'o', 'c', '/'] ++ Nat.toDigits 10 pid ++ ['/', 'm', 'e', 'm', '\x00']).map
    fun c => c.toNat.toUInt8

/-- `"/tmp/"` -/
def tmpSlash : List UInt8 := ['/', 't', 'm', 'p', '/'].map fun c => c.toNat.toUInt8

/-- `"/bye"` -/
def bye : List UInt8 := ['/', 'b', 'y', 'e'].map fun c => c.toNat.toUInt8

/-- The bytes from `addr` on, up to `n` and up to the first that is not mapped. -/
def readMem (mem : Nat → Option UInt8) : Nat → Nat → List UInt8
  | _, 0 => []
  | addr, n + 1 =>
    match mem addr with
    | none => []
    | some b => b :: readMem mem (addr + 1) n

namespace State

/-- `SECCOMP_IOCTL_NOTIF_ID_VALID` -/
def idValid (s : State) (id : Nat) : Bool := s.notifs.any (·.id = id)

/-- `checkNotificationIdIsValid`: it reports an invalid ID, and returns in any case. -/
def checkNotificationIdIsValid (s : State) (tag : String) : State :=
  if s.idValid s.req.id then s
  else { s with stderr := s.stderr ++
    [s!"Tracer: notification ID check ({tag}): target has died!!!!!!!!!!!"] }

end State

/-- What `read` gives for the pathname when it returns at most `len + 1` bytes. -/
def State.pathBytes (s : State) (len : Nat) : List UInt8 :=
  (readMem (s.mem s.procMem) s.req.pathname PATH_MAX).take (len + 1)

/-- One step of `watchForNotifications` after it has received a notification. -/
def stepTracer (s : State) (len : Nat) : Option State :=
  match s.pc with
  | .recv => none
  | .delay => some { s.checkNotificationIdIsValid "post-delay" with pc := .opens }
  | .opens =>
    let path := fill s.path (procMemPath s.req.pid)
    match s.table s.req.pid with
    | none => some { s with path := path, pc := .exited "Tracer: open" }
    | some p => some { s with path := path, procMem := p, pc := .check }
  | .check => some { s.checkNotificationIdIsValid "post-open" with
      valid := s.idValid s.req.id
      pc := .read }
  | .read =>
    if s.alive s.procMem = false then some { s with pc := .exited "Tracer: read returned EOF" }
    else
      match s.pathBytes len with
      | [] => some { s with pc := .exited "read" }
      | b :: got => some { s with
          path := fill s.path (b :: got)
          got := b :: got
          pc := .act }
  | .act =>
    if tmpSlash <+: cstr s.path then
      some { s with
        mkdirs := s.mkdirs ++ [⟨cstr s.path, s.req.mode, s.req, s.procMem, s.got, s.valid⟩]
        pc := .send }
    else some { s with pc := .send }
  | .send => some { s with
      notifs := s.notifs.filter (·.id ≠ s.req.id)
      pc := if cstr s.path = bye then .exited "Tracer: terminating" else .recv }
  | .exited _ => none

/-- One step of a process or of the tracer; `delay` is `opts->delaySecs > 0`. -/
def step (delay : Bool) (s : State) : Label → Option State
  | .spawn pid mem =>
    if s.table pid = none then
      some { s with
        table := update s.table pid (some s.nextProc)
        nextProc := s.nextProc + 1
        alive := update s.alive s.nextProc true
        mem := update s.mem s.nextProc mem }
    else none
  | .terminate pid =>
    match s.table pid with
    | none => none
    | some p => some { s with
        table := update s.table pid none
        alive := update s.alive p false
        notifs := s.notifs.filter (·.proc ≠ p) }
  | .store p addr b => some { s with mem := update s.mem p (update (s.mem p) addr (some b)) }
  | .syscall pid pathname mode =>
    match s.table pid with
    | none => none
    | some p => some { s with
        notifs := s.notifs ++ [⟨s.nextId, pid, pathname, mode, p⟩]
        nextId := s.nextId + 1 }
  | .interrupt id => some { s with notifs := s.notifs.filter (·.id ≠ id) }
  | .recv k =>
    match s.pc, s.notifs[k]? with
    | .recv, some n =>
      if delay then some { { s with req := n }.checkNotificationIdIsValid "pre-delay" with
        pc := .delay }
      else some { s with req := n, pc := .opens }
    | _, _ => none
  | .tracer len => stepTracer s len

def machine (delay : Bool) : Machine State Label := ⟨step delay⟩

/-- No process has been created; the tracer waits, with anything in `path`. -/
def State.init (path : List UInt8) : State where
  table := fun _ => none
  nextProc := 0
  alive := fun _ => false
  mem := fun _ _ => none
  notifs := []
  nextId := 0
  pc := .recv
  req := ⟨0, 0, 0, 0, 0⟩
  procMem := 0
  path := path
  valid := false
  got := []
  mkdirs := []
  stderr := []

/-! ## Whose memory is read -/

/-- The pathname of a `mkdir` was read, with its terminator, from the memory of the process that
issued the notification, whose ID was valid after the `open`. -/
structure Mkdir.Own (m : Mkdir) : Prop where
  source : m.source = m.req.proc
  valid : m.valid
  path : m.path ++ [0] <+: m.got

/-- When the tracer makes its check after the `open`, the call of the target is still blocked; and
when the tracer reads, it gets nothing or a pathname with its terminator. -/
def Sound (s : State) : Label → Prop
  | .tracer len => (s.pc = .check → s.req ∈ s.notifs) ∧
      (s.pc = .read → s.pathBytes len = [] ∨ 0 ∈ s.pathBytes len)
  | _ => True

instance (s : State) (a : Label) : Decidable (Sound s a) :=
  match a with
  | .tracer _ => inferInstanceAs (Decidable ((_ → _) ∧ (_ → _ ∨ _)))
  | .spawn _ _ | .terminate _ | .store _ _ _ | .syscall _ _ _ | .interrupt _ | .recv _ =>
    .isTrue trivial

structure Inv (s : State) : Prop where
  /-- A process that is blocked in its call still has its PID. -/
  owned : ∀ n ∈ s.notifs, s.table n.pid = some n.proc
  fresh : ∀ n ∈ s.notifs, n.id < s.nextId
  unique : ∀ n ∈ s.notifs, ∀ n' ∈ s.notifs, n.id = n'.id → n = n'
  req : s.pc ≠ .recv → s.req.id < s.nextId ∧ ∀ n ∈ s.notifs, n.id = s.req.id → n = s.req
  opened : s.pc = .check → s.req ∈ s.notifs → s.procMem = s.req.proc
  checked : s.pc = .read ∨ s.pc = .act → s.valid ∧ s.procMem = s.req.proc
  filled : s.pc = .act → 0 ∈ s.got ∧ ∃ buf, s.path = fill buf s.got
  own : ∀ m ∈ s.mkdirs, m.Own

section

variable {delay : Bool} {s t : State}

theorem inv_init (path : List UInt8) : Inv (State.init path) :=
  ⟨nofun, nofun, nofun, fun h => absurd rfl h, nofun, by simp [State.init], nofun, nofun⟩

/-- The step rule for the processes: a notification is an old one or has a new ID. -/
theorem Inv.world (h : Inv s) {table : Pid → Option Proc} {nextProc : Proc} {alive : Proc → Bool}
    {mem : Proc → Nat → Option UInt8} {notifs : List Notif} {nextId : Nat}
    (howned : ∀ n ∈ notifs, table n.pid = some n.proc)
    (hsub : ∀ n ∈ notifs, n ∈ s.notifs ∨ s.nextId ≤ n.id) (hfresh : ∀ n ∈ notifs, n.id < nextId)
    (hunique : ∀ n ∈ notifs, ∀ n' ∈ notifs, n.id = n'.id → n = n') (hle : s.nextId ≤ nextId) :
    Inv { s with
      table := table
      nextProc := nextProc
      alive := alive
      mem := mem
      notifs := notifs
      nextId := nextId } := by
  refine ⟨howned, hfresh, hunique, fun hpc => ⟨?_, fun n hn hid => ?_⟩, fun hpc hreq => ?_,
    h.checked, h.filled, h.own⟩
  · exact Nat.lt_of_lt_of_le (h.req hpc).1 hle
  · simp only at hpc hid
    rcases hsub n hn with hn | hn
    · exact (h.req hpc).2 n hn hid
    · have hlt := (h.req hpc).1
      omega
  · simp only at hpc hreq
    rcases hsub s.req hreq with hn | hn
    · exact h.opened hpc hn
    · have hlt := (h.req (by simp [hpc])).1
      omega

/-- Notifications are dropped. -/
theorem Inv.drop (h : Inv s) {p : Notif → Bool} {table : Pid → Option Proc} {alive : Proc → Bool}
    (htable : ∀ n ∈ s.notifs, p n → table n.pid = s.table n.pid) :
    Inv { s with table := table, alive := alive, notifs := s.notifs.filter p } := by
  have hmem {n} (hn : n ∈ s.notifs.filter p) : n ∈ s.notifs := (List.mem_filter.mp hn).1
  exact h.world
    (fun n hn => (htable n (hmem hn) (List.mem_filter.mp hn).2).trans (h.owned n (hmem hn)))
    (fun n hn => .inl (hmem hn)) (fun n hn => h.fresh n (hmem hn))
    (fun n hn n' hn' => h.unique n (hmem hn) n' (hmem hn')) le_rfl

theorem idValid_of_mem {n : Notif} (h : n ∈ s.notifs) : s.idValid n.id :=
  List.any_eq_true.mpr ⟨n, h, by simp⟩

/-- Reporting an invalid ID changes nothing else. -/
theorem State.check_eq (s : State) (tag : String) :
    ∃ stderr, s.checkNotificationIdIsValid tag = { s with stderr := stderr } := by
  unfold State.checkNotificationIdIsValid
  split
  · exact ⟨s.stderr, rfl⟩
  · exact ⟨_, rfl⟩

/-- The tracer moves on to a place at which nothing depends on what it has read. -/
theorem Inv.goto (h : Inv s) {pc : Pc} {path : List UInt8} {stderr : List String}
    (hs : s.pc ≠ .recv) (h1 : pc ≠ .check) (h2 : pc ≠ .read) (h3 : pc ≠ .act) :
    Inv { s with path := path, pc := pc, stderr := stderr } :=
  ⟨h.owned, h.fresh, h.unique, fun _ => h.req hs, fun hpc => absurd hpc h1,
    fun hpc => absurd hpc (by simp [h2, h3]), fun hpc => absurd hpc h3, h.own⟩

theorem inv_tracer {len : Nat} (h : Inv s) (hok : Sound s (.tracer len))
    (hn : stepTracer s len = some t) : Inv t := by
  cases hpc : s.pc with
  | recv | exited msg => simp [stepTracer, hpc] at hn
  | delay =>
    obtain ⟨stderr, he⟩ := s.check_eq "post-delay"
    simp only [stepTracer, hpc, he, Option.some.injEq] at hn
    subst hn
    exact h.goto (by simp [hpc]) nofun nofun nofun
  | opens =>
    simp only [stepTracer, hpc] at hn
    cases htab : s.table s.req.pid with
    | none =>
      simp only [htab, Option.some.injEq] at hn
      subst hn
      exact h.goto (by simp [hpc]) nofun nofun nofun
    | some p =>
      simp only [htab, Option.some.injEq] at hn
      subst hn
      refine ⟨h.owned, h.fresh, h.unique, fun _ => h.req (by simp [hpc]), fun _ hreq => ?_,
        by simp, nofun, h.own⟩
      exact Option.some.inj (htab.symm.trans (h.owned _ hreq))
  | check =>
    obtain ⟨stderr, he⟩ := s.check_eq "post-open"
    simp only [stepTracer, hpc, he, Option.some.injEq] at hn
    subst hn
    have hreq := hok.1 hpc
    exact ⟨h.owned, h.fresh, h.unique, fun _ => h.req (by simp [hpc]), nofun,
      fun _ => ⟨idValid_of_mem hreq, h.opened hpc hreq⟩, nofun, h.own⟩
  | read =>
    simp only [stepTracer, hpc] at hn
    split at hn
    · cases hn
      exact h.goto (by simp [hpc]) nofun nofun nofun
    · cases hgot : s.pathBytes len with
      | nil =>
        simp only [hgot, Option.some.injEq] at hn
        subst hn
        exact h.goto (by simp [hpc]) nofun nofun nofun
      | cons b got =>
        simp only [hgot, Option.some.injEq] at hn
        subst hn
        have hnull : 0 ∈ b :: got := hgot ▸ (hok.2 hpc).resolve_left (by simp [hgot])
        exact ⟨h.owned, h.fresh, h.unique, fun _ => h.req (by simp [hpc]), nofun,
          fun _ => h.checked (.inl hpc), fun _ => ⟨hnull, s.path, rfl⟩, h.own⟩
  | act =>
    simp only [stepTracer, hpc] at hn
    split at hn
    · cases hn
      obtain ⟨hv, hsource⟩ := h.checked (.inr hpc)
      obtain ⟨hnull, buf, hfill⟩ := h.filled hpc
      refine ⟨h.owned, h.fresh, h.unique, fun _ => h.req (by simp [hpc]), nofun, by simp, nofun,
        fun m hm => ?_⟩
      rcases List.mem_append.mp hm with hm | hm
      · exact h.own m hm
      · cases List.mem_singleton.mp hm
        exact ⟨hsource, hv, hfill ▸ cstr_fill hnull⟩
    · cases hn
      exact h.goto (by simp [hpc]) nofun nofun nofun
  | send =>
    simp only [stepTracer, hpc, Option.some.injEq] at hn
    subst hn
    have hdrop : Inv { s with notifs := s.notifs.filter (·.id ≠ s.req.id) } :=
      h.drop fun _ _ _ => rfl
    refine hdrop.goto (by simp [hpc]) ?_ ?_ ?_ <;> split <;> nofun

theorem inv_syscall {pid : Pid} {pathname : Nat} {mode : Nat} (h : Inv s)
    (hn : step delay s (.syscall pid pathname mode) = some t) : Inv t := by
  cases htab : s.table pid with
  | none => simp [step, htab] at hn
  | some p =>
    simp only [step, htab, Option.some.injEq] at hn
    subst hn
    have hmem {n} (hn : n ∈ s.notifs ++ [⟨s.nextId, pid, pathname, mode, p⟩]) :
        n ∈ s.notifs ∨ n = ⟨s.nextId, pid, pathname, mode, p⟩ := by
      simpa using hn
    refine h.world (fun n hn => ?_) (fun n hn => ?_) (fun n hn => ?_) (fun n hn n' hn' hid => ?_)
      (Nat.le_succ _)
    · rcases hmem hn with hn | rfl
      · exact h.owned n hn
      · exact htab
    · exact (hmem hn).imp id fun hn => by simp [hn]
    · rcases hmem hn with hn | rfl
      · exact Nat.lt_succ_of_lt (h.fresh n hn)
      · exact Nat.lt_succ_self _
    · rcases hmem hn with hn | rfl
      · rcases hmem hn' with hn' | rfl
        · exact h.unique n hn n' hn' hid
        · exact absurd hid (h.fresh n hn).ne
      · rcases hmem hn' with hn' | rfl
        · exact absurd hid (h.fresh n' hn').ne'
        · rfl

theorem inv_recv {k : Nat} (h : Inv s) (hn : step delay s (.recv k) = some t) : Inv t := by
  cases hpc : s.pc with
  | recv =>
    cases hk : s.notifs[k]? with
    | none => simp [step, hpc, hk] at hn
    | some n =>
      have hmem : n ∈ s.notifs := List.mem_of_getElem? hk
      have hreq {pc : Pc} {stderr : List String} (h1 : pc ≠ .check) (h2 : pc ≠ .read)
          (h3 : pc ≠ .act) : Inv { s with req := n, pc := pc, stderr := stderr } :=
        ⟨h.owned, h.fresh, h.unique,
          fun _ => ⟨h.fresh n hmem, fun n' hn' => h.unique n' hn' n hmem⟩,
          fun hpc => absurd hpc h1, fun hpc => absurd hpc (by simp [h2, h3]),
          fun hpc => absurd hpc h3, h.own⟩
      obtain ⟨stderr, he⟩ := State.check_eq { s with pc := .recv, req := n } "pre-delay"
      simp only [step, hpc, hk, he] at hn
      split at hn <;> cases hn
      · exact hreq nofun nofun nofun
      · exact hreq nofun nofun nofun
  | _ => simp [step, hpc] at hn

theorem inv_step {a : Label} (h : Inv s) (hok : Sound s a) (hn : step delay s a = some t) :
    Inv t := by
  cases a with
  | spawn pid mem =>
    simp only [step, Option.ite_none_right_eq_some, Option.some.injEq] at hn
    obtain ⟨hfree, rfl⟩ := hn
    refine h.world (fun n hn => ?_) (fun n hn => .inl hn) h.fresh h.unique le_rfl
    have hne : n.pid ≠ pid := by
      rintro rfl
      exact absurd (hfree.symm.trans (h.owned n hn)) (by simp)
    simpa [hne] using h.owned n hn
  | terminate pid =>
    cases htab : s.table pid with
    | none => simp [step, htab] at hn
    | some p =>
      simp only [step, htab, Option.some.injEq] at hn
      subst hn
      refine h.drop fun n hn hp => update_of_ne ?_ _ _
      rintro rfl
      have hproc := Option.some.inj (htab.symm.trans (h.owned n hn))
      simp [hproc] at hp
  | store p addr b =>
    simp only [step, Option.some.injEq] at hn
    subst hn
    exact h.world h.owned (fun n hn => .inl hn) h.fresh h.unique le_rfl
  | syscall pid pathname mode => exact inv_syscall h hn
  | interrupt id =>
    simp only [step, Option.some.injEq] at hn
    subst hn
    exact h.drop fun _ _ _ => rfl
  | recv k => exact inv_recv h hn
  | tracer len => exact inv_tracer h hok hn

theorem mkdirs_own_of_sound {path : List UInt8}
    (h : (machine delay).ReachableBy Sound (State.init path) s) : ∀ m ∈ s.mkdirs, m.Own :=
  (h.invariant (inv_init path) fun _ _ _ => inv_step).own

end

/-- The memory of a process that holds only the string `/tmp/` and one more character. -/
def tmpPath (c : UInt8) (addr : Nat) : Option UInt8 := (tmpSlash ++ [c, 0])[addr]?

/-- The buffer before the first notification. -/
def clearPath : List UInt8 := List.replicate PATH_MAX 0

/-- The target terminates after its directory has been created. -/
theorem mkdirs_own_one : ∃ s, (machine true).ReachableBy Sound (State.init clearPath) s ∧
    s.mkdirs.length = 1 ∧ ∀ m ∈ s.mkdirs, m.Own := by
  have hr : ∃ s, (machine true).ReachableBy Sound (State.init clearPath) s ∧
      s.mkdirs.length = 1 :=
    Machine.ReachableBy.exists_of_runBy
      [.spawn 5 (tmpPath 97), .syscall 5 0 448, .recv 0, .tracer 0, .tracer 0, .tracer 0,
        .tracer 100, .tracer 0, .terminate 5, .tracer 0] .refl ⟨_, rfl, rfl⟩
  obtain ⟨s, hs, hlen⟩ := hr
  exact ⟨s, hs, hlen, mkdirs_own_of_sound hs⟩

/-- The target terminates before the `open`, and another process gets its PID. -/
theorem not_mkdirs_own : ∃ s, (machine false).Reachable (State.init clearPath) s ∧
    ¬∀ m ∈ s.mkdirs, m.Own :=
  Machine.Reachable.exists_of_run
    [.spawn 5 (tmpPath 97), .syscall 5 0 448, .recv 0, .terminate 5, .spawn 5 (tmpPath 98),
      .tracer 0, .tracer 0, .tracer 100, .tracer 0] .refl
    ⟨_, rfl, fun h => absurd (h _ (List.mem_singleton_self _)).source (by decide)⟩

end Tlpi.UserNotification
