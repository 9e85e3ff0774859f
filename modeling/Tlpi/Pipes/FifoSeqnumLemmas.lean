import Mathlib.Data.List.Nodup
import Tlpi.Pipes.FifoSeqnum

/-!
# Ranges of the FIFO sequence-number service

Three invariants. `Files` ties descriptors, FIFOs and the process table together, in every run.
`Requests` says that the only live process with the PID of an unanswered request is its sender; it
holds as long as no client starts with the PID of an outstanding request. `Ranges` follows from it:
what a client has read, or can read, is its own range.
-/

namespace Tlpi.FifoSeqnum

/-! ## What the calls do -/

section
variable {s t : State} {i : Nat}

theorem openClient_cases (h : openClient s i = some t) :
    (s.client i).pc = .openClient ∧
      (t = s.setClient i { s.client i with pc := .exit } ∨
        ∃ k, s.path (s.client i).pid = some k ∧
          t = (s.setInode k { s.inode k with
              readers := i :: (s.inode k).readers, rCounter := (s.inode k).rCounter + 1 }).setClient i
            { s.client i with
              clientFd := some k
              pc := if (s.inode k).writer then .read else .openWait (s.inode k).wCounter }) := by
  simp only [openClient, Option.ite_none_right_eq_some] at h
  obtain ⟨hpc, h⟩ := h
  refine ⟨hpc, ?_⟩
  split at h
  · cases h
    exact .inl rfl
  · cases h
    exact .inr ⟨_, ‹_›, rfl⟩

theorem openDone_cases (h : openDone s i = some t) :
    ∃ n k, (s.client i).pc = .openWait n ∧ (s.client i).clientFd = some k ∧
      (s.inode k).wCounter ≠ n ∧ t = s.setClient i { s.client i with pc := .read } := by
  simp only [openDone] at h
  split at h
  · simp only [Option.ite_none_right_eq_some, Option.some.injEq] at h
    exact ⟨_, _, ‹_›, ‹_›, h.1, h.2.symm⟩
  · cases h

theorem read_cases (h : read s i = some t) :
    ∃ k, (s.client i).pc = .read ∧ (s.client i).clientFd = some k ∧
      ((∃ v rest, (s.inode k).data = v :: rest ∧
        t = (s.setInode k { s.inode k with data := rest }).setClient i
          { s.client i with resp := some v, pc := .exit }) ∨
        (s.inode k).data = [] ∧ t = s.setClient i { s.client i with pc := .exit }) := by
  simp only [read] at h
  split at h
  · split at h
    · cases h
      exact ⟨_, ‹_›, ‹_›, .inl ⟨_, _, ‹_›, rfl⟩⟩
    · simp only [Option.ite_none_left_eq_some, Option.some.injEq] at h
      exact ⟨_, ‹_›, ‹_›, .inr ⟨‹_›, h.2.symm⟩⟩
  · cases h

theorem serverRead_cases (h : serverRead s = some t) :
    ∃ req rest, s.server = .read ∧ s.serverFifo = req :: rest ∧
      t = { s with server := .open req, serverFifo := rest } := by
  simp only [serverRead] at h
  split at h
  · cases h
    exact ⟨_, _, ‹_›, ‹_›, rfl⟩
  · cases h

theorem serverOpen_cases (h : serverOpen s = some t) :
    ∃ req, s.server = .open req ∧
      (t = { s with server := .read } ∨
        ∃ k, s.path req.pid = some k ∧
          t = { s.setInode k { s.inode k with writer := true, wCounter := (s.inode k).wCounter + 1 } with
            server := if (s.inode k).readers = [] then .openWait req k (s.inode k).rCounter
              else .write req k }) := by
  simp only [serverOpen] at h
  split at h
  · split at h
    · cases h
      exact ⟨_, ‹_›, .inl rfl⟩
    · cases h
      exact ⟨_, ‹_›, .inr ⟨_, ‹_›, rfl⟩⟩
  · cases h

theorem serverOpenDone_cases (h : serverOpenDone s = some t) :
    ∃ req k n, s.server = .openWait req k n ∧ (s.inode k).rCounter ≠ n ∧
      t = { s with server := .write req k } := by
  simp only [serverOpenDone] at h
  split at h
  · simp only [Option.ite_none_right_eq_some, Option.some.injEq] at h
    exact ⟨_, _, _, ‹_›, h.1, h.2.symm⟩
  · cases h

theorem serverClose_cases (h : serverClose s = some t) :
    ∃ req k, s.server = .close req k ∧
      t = { s.setInode k { s.inode k with writer := false }.release with
        server := .read, seqNum := wrap32 (s.seqNum + req.seqLen) } := by
  simp only [serverClose] at h
  split at h
  · cases h
    exact ⟨_, _, ‹_›, rfl⟩
  · cases h

end

def Client.Live (c : Client) : Prop := c.pc ≠ .idle ∧ c.pc ≠ .dead

/-- The client has got past the `open` of its FIFO. -/
def ClientPc.opened : ClientPc → Bool
  | .openWait _ | .read | .exit | .exited => true
  | _ => false

/-- The client has not sent its request. -/
def ClientPc.unsent : ClientPc → Bool
  | .mkfifo | .openServer | .request => true
  | _ => false

/-- The FIFO that the server has open. -/
def ServerPc.fd? : ServerPc → Option Nat
  | .read | .open _ => none
  | .openWait _ k _ | .write _ k | .close _ k => some k

/-- The request that the server is serving and has not answered. -/
def ServerPc.unanswered? : ServerPc → Option Request
  | .read | .close _ _ => none
  | .open req | .openWait req _ _ | .write req _ => some req

def State.unanswered (s : State) : List Request := s.server.unanswered?.toList ++ s.serverFifo

theorem State.outstanding_of_req {s : State} {req : Request} (h : s.server.req? = some req) :
    s.outstanding = req :: s.serverFifo := by
  rw [State.outstanding, h]
  rfl

theorem State.unanswered_of_req {s : State} {req : Request}
    (h : s.server.unanswered? = some req) : s.unanswered = req :: s.serverFifo := by
  rw [State.unanswered, h]
  rfl

theorem State.mem_unanswered {s : State} {req : Request} (h : s.server.unanswered? = some req) :
    req ∈ s.unanswered := by
  rw [State.unanswered_of_req h]
  exact List.mem_cons_self

structure Files (s : State) : Prop where
  proc_iff : ∀ p i, s.proc p = some i ↔ (s.client i).Live ∧ (s.client i).pid = p
  reader_iff : ∀ k i, i ∈ (s.inode k).readers ↔ (s.client i).clientFd = some k
  fd_opened : ∀ i k, (s.client i).clientFd = some k → (s.client i).pc.opened = true
  fd_pid : ∀ i k, (s.client i).clientFd = some k → (s.inode k).pid = (s.client i).pid
  path_pid : ∀ p k, s.path p = some k → (s.inode k).pid = p ∧ k < s.nextInode
  writer_iff : ∀ k, (s.inode k).writer = true ↔ s.server.fd? = some k
  server_pid : ∀ r k, s.server.req? = some r → s.server.fd? = some k → (s.inode k).pid = r.pid
  fresh : ∀ k, s.nextInode ≤ k →
    (s.inode k).readers = [] ∧ (s.inode k).writer = false ∧ (s.inode k).data = []

namespace State

variable (s : State) (i j k l : Nat) (c : Client) (f : Fifo)

@[simp] theorem setClient_self : (s.setClient i c).client i = c := Function.update_self ..
@[simp] theorem setClient_ne {j i : Nat} (h : j ≠ i) : (s.setClient i c).client j = s.client j :=
  Function.update_of_ne h ..
@[simp] theorem setClient_inode : (s.setClient i c).inode = s.inode := rfl
@[simp] theorem setClient_server : (s.setClient i c).server = s.server := rfl
@[simp] theorem setClient_serverFifo : (s.setClient i c).serverFifo = s.serverFifo := rfl
@[simp] theorem setClient_path : (s.setClient i c).path = s.path := rfl
@[simp] theorem setClient_proc : (s.setClient i c).proc = s.proc := rfl
@[simp] theorem setClient_nextInode : (s.setClient i c).nextInode = s.nextInode := rfl
@[simp] theorem setClient_seqNum : (s.setClient i c).seqNum = s.seqNum := rfl
@[simp] theorem setClient_allocated : (s.setClient i c).allocated = s.allocated := rfl

@[simp] theorem setInode_self : (s.setInode k f).inode k = f := Function.update_self ..
@[simp] theorem setInode_ne {l k : Nat} (h : l ≠ k) : (s.setInode k f).inode l = s.inode l :=
  Function.update_of_ne h ..
@[simp] theorem setInode_client : (s.setInode k f).client = s.client := rfl
@[simp] theorem setInode_server : (s.setInode k f).server = s.server := rfl
@[simp] theorem setInode_serverFifo : (s.setInode k f).serverFifo = s.serverFifo := rfl
@[simp] theorem setInode_path : (s.setInode k f).path = s.path := rfl
@[simp] theorem setInode_proc : (s.setInode k f).proc = s.proc := rfl
@[simp] theorem setInode_nextInode : (s.setInode k f).nextInode = s.nextInode := rfl
@[simp] theorem setInode_seqNum : (s.setInode k f).seqNum = s.seqNum := rfl
@[simp] theorem setInode_allocated : (s.setInode k f).allocated = s.allocated := rfl

/-- What the new FIFO has in common with the old one does not change. -/
theorem setInode_congr {β : Type} (g : Fifo → β) {s : State} {k : Nat} {f : Fifo}
    (h : g f = g (s.inode k)) (l : Nat) : g ((s.setInode k f).inode l) = g (s.inode l) := by
  by_cases hl : l = k
  · subst hl; simpa using h
  · simp [hl]

end State

namespace Fifo

variable (f : Fifo)

@[simp] theorem release_pid : f.release.pid = f.pid := by unfold release; split <;> rfl
@[simp] theorem release_readers : f.release.readers = f.readers := by unfold release; split <;> rfl
@[simp] theorem release_writer : f.release.writer = f.writer := by unfold release; split <;> rfl

theorem release_data : f.release.data = [] ∨ f.release.data = f.data := by
  unfold release; split
  · exact .inl rfl
  · exact .inr rfl

end Fifo

section
variable {s t : State}

theorem Client.live_of_opened {c : Client} (h : c.pc.opened = true) : c.Live := by
  constructor <;> intro hc <;> simp [hc, ClientPc.opened] at h

theorem Client.live_of_unsent {c : Client} (h : c.pc.unsent = true) : c.Live := by
  constructor <;> intro hc <;> simp [hc, ClientPc.unsent] at h

theorem Files.live (F : Files s) {i k : Nat} (h : (s.client i).clientFd = some k) :
    (s.client i).Live :=
  Client.live_of_opened (F.fd_opened i k h)

/-- There is one live process for a PID. -/
theorem Files.unique (F : Files s) {i j : Nat} (hi : (s.client i).Live) (hj : (s.client j).Live)
    (h : (s.client i).pid = (s.client j).pid) : i = j := by
  have h₁ := (F.proc_iff _ i).mpr ⟨hi, rfl⟩
  have h₂ := (F.proc_iff _ j).mpr ⟨hj, rfl⟩
  rw [h, h₂] at h₁
  exact (Option.some.inj h₁).symm

theorem files_initial : Files initial where
  proc_iff p i := by simp [initial, Client.Live]
  reader_iff k i := by simp [initial, emptyFifo]
  fd_opened i k h := by simp [initial] at h
  fd_pid i k h := by simp [initial] at h
  path_pid p k h := by simp [initial] at h
  writer_iff k := by simp [initial, emptyFifo, ServerPc.fd?]
  server_pid r k h := by simp [initial, ServerPc.req?] at h
  fresh k _ := ⟨rfl, rfl, rfl⟩

/-- A step of a client that opens, closes and starts nothing. -/
theorem Files.of_client (F : Files s) (hproc : t.proc = s.proc) (hinode : t.inode = s.inode)
    (hserver : t.server = s.server) (hnext : t.nextInode = s.nextInode)
    (hpath : ∀ p k, t.path p = some k → s.path p = some k)
    (hpid : ∀ j, (t.client j).pid = (s.client j).pid)
    (hfd : ∀ j, (t.client j).clientFd = (s.client j).clientFd)
    (hlive : ∀ j, (t.client j).Live ↔ (s.client j).Live)
    (hopened : ∀ j, (s.client j).pc.opened = true → (t.client j).pc.opened = true) : Files t where
  proc_iff p i := by rw [hproc, hlive, hpid]; exact F.proc_iff p i
  reader_iff k i := by rw [hinode, hfd]; exact F.reader_iff k i
  fd_opened i k h := hopened i (F.fd_opened i k (hfd i ▸ h))
  fd_pid i k h := by rw [hinode, hpid]; exact F.fd_pid i k (hfd i ▸ h)
  path_pid p k h := by rw [hinode, hnext]; exact F.path_pid p k (hpath p k h)
  writer_iff k := by rw [hinode, hserver]; exact F.writer_iff k
  server_pid r k := by rw [hinode, hserver]; exact F.server_pid r k
  fresh k := by rw [hinode, hnext]; exact F.fresh k

/-- A client moves on to another position without opening or closing anything. -/
theorem Files.setPc (F : Files s) {i : Nat} {pc : ClientPc} {v : Option Response}
    (hlive : (s.client i).Live) (hpc : pc ≠ .idle ∧ pc ≠ .dead)
    (hopened : (s.client i).pc.opened = true → pc.opened = true) :
    Files (s.setClient i { s.client i with pc, resp := v }) := by
  refine F.of_client rfl rfl rfl rfl (fun _ _ h => h) ?_ ?_ ?_ ?_ <;> intro j <;>
    by_cases hj : j = i
  · subst hj; simp
  · simp [hj]
  · subst hj; simp
  · simp [hj]
  · subst hj; simpa [Client.Live] using iff_of_true hpc hlive
  · simp [hj]
  · subst hj; simpa using hopened
  · simp [hj]

theorem files_start {i pid seqLen : Nat} (F : Files s) (h : start s i pid seqLen = some t) :
    Files t := by
  simp only [start, Option.ite_none_right_eq_some, Option.some.injEq] at h
  obtain ⟨⟨hidle, hproc, -⟩, rfl⟩ := h
  have hdead : ¬ (s.client i).Live := fun hl => hl.1 hidle
  have hfd : (s.client i).clientFd = none := by
    by_contra hne
    obtain ⟨k, hk⟩ := Option.ne_none_iff_exists'.mp hne
    exact hdead (F.live hk)
  have hold : ∀ j, j ≠ i → (s.client j).Live → (s.client j).pid ≠ pid := by
    intro j _ hl hp
    rw [(F.proc_iff pid j).mpr ⟨hl, hp⟩] at hproc
    cases hproc
  refine ⟨?_, ?_, ?_, ?_, F.path_pid, F.writer_iff, F.server_pid, F.fresh⟩
  · intro p j
    by_cases hj : j = i
    · subst hj
      by_cases hp : p = pid
      · subst hp; simp [Client.Live]
      · have hnone : s.proc p ≠ some j := fun h => hdead ((F.proc_iff p j).mp h).1
        simp [hp, hnone, Ne.symm hp]
    · by_cases hp : p = pid
      · subst hp
        simpa [hj, Ne.symm hj] using hold j hj
      · simpa [hj, hp] using F.proc_iff p j
  · intro k j
    by_cases hj : j = i
    · subst hj
      simpa [hfd] using F.reader_iff k j
    · simpa [hj] using F.reader_iff k j
  · intro j k
    by_cases hj : j = i
    · subst hj; simp
    · simpa [hj] using F.fd_opened j k
  · intro j k
    by_cases hj : j = i
    · subst hj; simp
    · simpa [hj] using F.fd_pid j k

theorem files_mkfifo {i : Nat} (F : Files s) (h : mkfifo s i = some t) : Files t := by
  simp only [mkfifo, Option.ite_none_right_eq_some] at h
  obtain ⟨hpc, h⟩ := h
  have hl : (s.client i).Live := by simp [Client.Live, hpc]
  have F' : Files (s.setClient i { s.client i with pc := .openServer }) :=
    F.setPc hl (by simp) (by simp [hpc, ClientPc.opened])
  split at h
  · cases h; exact F'
  · cases h
    generalize s.setClient i { s.client i with pc := .openServer } = u at F'
    obtain ⟨hr, hw, -⟩ := F'.fresh u.nextInode le_rfl
    have hne : ∀ j k, (u.client j).clientFd = some k → k ≠ u.nextInode := by
      rintro j k hk rfl
      have := (F'.reader_iff _ j).mpr hk
      rw [hr] at this
      cases this
    refine ⟨F'.proc_iff, ?_, F'.fd_opened, ?_, ?_, ?_, ?_, ?_⟩
    · intro k j
      by_cases hk : k = u.nextInode
      · subst hk
        simpa [emptyFifo] using fun h => hne j _ h rfl
      · simpa [hk] using F'.reader_iff k j
    · intro j k hk
      simpa [hne j k hk] using F'.fd_pid j k hk
    · intro p k hp
      by_cases hpi : p = (s.client i).pid
      · subst hpi
        obtain rfl : u.nextInode = k := by simpa using hp
        simp [emptyFifo]
      · obtain ⟨h₁, h₂⟩ := F'.path_pid p k (by simpa [hpi] using hp)
        exact ⟨by simpa [Nat.ne_of_lt h₂] using h₁, Nat.lt_succ_of_lt h₂⟩
    · intro k
      by_cases hk : k = u.nextInode
      · subst hk
        have := F'.writer_iff u.nextInode
        rw [hw] at this
        simpa [emptyFifo] using this
      · simpa [hk] using F'.writer_iff k
    · intro r k hreq hfd
      have hk : k ≠ u.nextInode := by
        rintro rfl
        rw [(F'.writer_iff _).mpr hfd] at hw
        cases hw
      simpa [hk] using F'.server_pid r k hreq hfd
    · intro k hk
      have hne' : k ≠ u.nextInode := by
        intro h
        simp only [h] at hk
        omega
      simpa [hne'] using F'.fresh k (Nat.le_of_succ_le hk)

theorem files_openServer {i : Nat} (F : Files s) (h : openServer s i = some t) : Files t := by
  simp only [openServer, Option.ite_none_right_eq_some, Option.some.injEq] at h
  obtain ⟨hpc, rfl⟩ := h
  exact F.setPc (by simp [Client.Live, hpc]) (by simp) (by simp [hpc, ClientPc.opened])

theorem files_request {i : Nat} (F : Files s) (h : request s i = some t) : Files t := by
  simp only [request, Option.ite_none_right_eq_some, Option.some.injEq] at h
  obtain ⟨hpc, rfl⟩ := h
  have F' : Files (s.setClient i { s.client i with pc := .openClient }) :=
    F.setPc (by simp [Client.Live, hpc]) (by simp) (by simp [hpc, ClientPc.opened])
  exact ⟨F'.proc_iff, F'.reader_iff, F'.fd_opened, F'.fd_pid, F'.path_pid, F'.writer_iff,
    F'.server_pid, F'.fresh⟩

/-- A client opens or closes its FIFO. -/
theorem Files.setReaders (F : Files s) {i k : Nat} {c : Client} {f : Fifo}
    (hlive : (s.client i).Live) (hc : c.Live) (hcpid : c.pid = (s.client i).pid)
    (hfd : ∀ l, c.clientFd = some l → c.pc.opened = true ∧ (s.inode l).pid = (s.client i).pid)
    (hpid : f.pid = (s.inode k).pid) (hw : f.writer = (s.inode k).writer) (hk : k < s.nextInode)
    (hreaders : ∀ l j, j ∈ ((s.setInode k f).inode l).readers ↔
      ((s.setClient i c).client j).clientFd = some l) :
    Files ((s.setInode k f).setClient i c) where
  proc_iff p j := by
    by_cases hj : j = i
    · subst hj
      have := F.proc_iff p j
      simp only [hlive, true_and] at this
      simpa [hc, hcpid] using this
    · simpa [hj] using F.proc_iff p j
  reader_iff := hreaders
  fd_opened j l := by
    by_cases hj : j = i
    · subst hj
      simpa using fun h => (hfd l h).1
    · simpa [hj] using F.fd_opened j l
  fd_pid j l := by
    rw [State.setClient_inode, State.setInode_congr Fifo.pid hpid]
    by_cases hj : j = i
    · subst hj
      simpa [hcpid] using fun h => (hfd l h).2
    · simpa [hj] using F.fd_pid j l
  path_pid p l hp := by
    rw [State.setClient_inode, State.setInode_congr Fifo.pid hpid]
    exact F.path_pid p l hp
  writer_iff l := by
    rw [State.setClient_inode, State.setInode_congr Fifo.writer hw]
    exact F.writer_iff l
  server_pid r l hr hf := by
    rw [State.setClient_inode, State.setInode_congr Fifo.pid hpid]
    exact F.server_pid r l hr hf
  fresh l hl := by
    have hlk : l ≠ k := by
      rintro rfl
      exact absurd hk (Nat.not_lt.mpr hl)
    simpa [hlk] using F.fresh l hl

theorem files_openClient {i : Nat} (F : Files s) (h : openClient s i = some t) : Files t := by
  obtain ⟨hpc, hcases⟩ := openClient_cases h
  have hl : (s.client i).Live := by simp [Client.Live, hpc]
  obtain rfl | ⟨k, hpath, rfl⟩ := hcases
  · exact F.setPc hl (by simp) (by simp [ClientPc.opened])
  · obtain ⟨hpid, hlt⟩ := F.path_pid _ k hpath
    have hfd : ∀ l, (s.client i).clientFd ≠ some l := by
      intro l hl
      simpa [hpc, ClientPc.opened] using F.fd_opened i l hl
    have hopen : (if (s.inode k).writer = true then ClientPc.read
        else .openWait (s.inode k).wCounter).opened = true := by
      split <;> rfl
    refine F.setReaders hl (Client.live_of_opened hopen) rfl ?_ rfl rfl hlt ?_
    · intro l hl'
      cases hl'
      exact ⟨hopen, hpid⟩
    · intro l j
      by_cases hj : j = i
      · subst hj
        by_cases hlk : l = k
        · subst hlk
          simp
        · have := (F.reader_iff l j).not.mpr (hfd l)
          simpa [hlk, Ne.symm hlk] using this
      · by_cases hlk : l = k
        · subst hlk
          simpa [hj] using F.reader_iff l j
        · simpa [hj, hlk] using F.reader_iff l j

theorem files_openDone {i : Nat} (F : Files s) (h : openDone s i = some t) : Files t := by
  obtain ⟨n, k, -, hfd, -, rfl⟩ := openDone_cases h
  exact F.setPc (F.live hfd) (by simp) (by simp [ClientPc.opened])

/-- Changing what is in a FIFO, or the numbers of opens. -/
theorem Files.setData (F : Files s) {k : Nat} {f : Fifo} (hpid : f.pid = (s.inode k).pid)
    (hr : f.readers = (s.inode k).readers) (hw : f.writer = (s.inode k).writer)
    (hd : k < s.nextInode) : Files (s.setInode k f) where
  proc_iff := F.proc_iff
  reader_iff l i := by rw [State.setInode_congr Fifo.readers hr]; exact F.reader_iff l i
  fd_opened := F.fd_opened
  fd_pid i l h := by rw [State.setInode_congr Fifo.pid hpid]; exact F.fd_pid i l h
  path_pid p l h := by rw [State.setInode_congr Fifo.pid hpid]; exact F.path_pid p l h
  writer_iff l := by rw [State.setInode_congr Fifo.writer hw]; exact F.writer_iff l
  server_pid r l h h' := by
    rw [State.setInode_congr Fifo.pid hpid]; exact F.server_pid r l h h'
  fresh l hl := by
    have hlk : l ≠ k := by
      rintro rfl
      exact absurd hd (Nat.not_lt.mpr hl)
    simpa [hlk] using F.fresh l hl

theorem Files.lt_of_fd (F : Files s) {i k : Nat} (h : (s.client i).clientFd = some k) :
    k < s.nextInode := by
  by_contra hle
  have hmem := (F.reader_iff k i).mpr h
  rw [(F.fresh k (Nat.not_lt.mp hle)).1] at hmem
  cases hmem

theorem Files.lt_of_server (F : Files s) {k : Nat} (h : s.server.fd? = some k) :
    k < s.nextInode := by
  by_contra hle
  have hw := (F.writer_iff k).mpr h
  rw [(F.fresh k (Nat.not_lt.mp hle)).2.1] at hw
  cases hw

theorem files_read {i : Nat} (F : Files s) (h : read s i = some t) : Files t := by
  obtain ⟨k, -, hfd, hcases⟩ := read_cases h
  obtain ⟨v, rest, hdata, rfl⟩ | ⟨-, rfl⟩ := hcases
  · have F' := F.setData (f := { s.inode k with data := rest }) rfl rfl rfl (F.lt_of_fd hfd)
    exact F'.setPc (F.live hfd) (by simp) (by simp [ClientPc.opened])
  · exact F.setPc (F.live hfd) (by simp) (by simp [ClientPc.opened])

theorem files_fail {i : Nat} (F : Files s) (h : fail s i = some t) : Files t := by
  simp only [fail, Option.ite_none_right_eq_some, Option.some.injEq] at h
  obtain ⟨hpc, rfl⟩ := h
  refine F.setPc ?_ (by simp) (by simp [ClientPc.opened])
  rcases hpc with h | h | h <;> simp [Client.Live, h]

theorem files_exit {i : Nat} (F : Files s) (h : exit s i = some t) : Files t := by
  simp only [exit, Option.ite_none_right_eq_some, Option.some.injEq] at h
  obtain ⟨hpc, rfl⟩ := h
  have F' : Files (s.setClient i { s.client i with pc := .exited }) :=
    F.setPc (by simp [Client.Live, hpc]) (by simp) (by simp [ClientPc.opened])
  refine ⟨F'.proc_iff, F'.reader_iff, F'.fd_opened, F'.fd_pid, ?_, F'.writer_iff, F'.server_pid,
    F'.fresh⟩
  intro p k hp
  by_cases hpi : p = (s.client i).pid
  · simp [hpi] at hp
  · exact F'.path_pid p k (by simpa [hpi] using hp)

/-- The kernel closes the FIFO of a client. -/
theorem Files.closeClient (F : Files s) {i k : Nat} (hfd : (s.client i).clientFd = some k) :
    Files ((s.setInode k { s.inode k with
      readers := (s.inode k).readers.filter (· ≠ i) }.release).setClient i
        { s.client i with clientFd := none }) := by
  refine F.setReaders (F.live hfd) (F.live hfd) rfl nofun (by simp) (by simp) (F.lt_of_fd hfd) ?_
  intro l j
  by_cases hj : j = i
  · subst hj
    by_cases hlk : l = k
    · subst hlk
      simp
    · have := F.reader_iff l j
      rw [hfd] at this
      simpa [hlk, Ne.symm hlk] using this
  · by_cases hlk : l = k
    · subst hlk
      simpa [hj] using F.reader_iff l j
    · simpa [hj, hlk] using F.reader_iff l j

/-- A client that has no FIFO open ends. -/
theorem Files.dead (F : Files s) {i : Nat} (hl : (s.client i).Live)
    (hfd : (s.client i).clientFd = none) :
    Files { s.setClient i { s.client i with pc := .dead, clientFd := none } with
      proc := Function.update s.proc (s.client i).pid none } := by
  have hclient : ∀ j k, ((s.setClient i { s.client i with
      pc := .dead, clientFd := none }).client j).clientFd = some k →
      j ≠ i ∧ (s.client j).clientFd = some k := by
    intro j k h
    by_cases hj : j = i
    · subst hj
      simp at h
    · exact ⟨hj, by simpa [hj] using h⟩
  refine ⟨?_, ?_, ?_, ?_, F.path_pid, F.writer_iff, F.server_pid, F.fresh⟩
  · intro p j
    by_cases hj : j = i
    · subst hj
      by_cases hp : p = (s.client j).pid
      · simp [hp, Client.Live]
      · have : s.proc p ≠ some j := fun h => hp ((F.proc_iff p j).mp h).2.symm
        simp [hp, Client.Live, this]
    · by_cases hp : p = (s.client i).pid
      · subst hp
        have hne : ¬((s.client j).Live ∧ (s.client j).pid = (s.client i).pid) :=
          fun h => hj (F.unique h.1 hl h.2)
        simpa [hj] using hne
      · simpa [hj, hp] using F.proc_iff p j
  · intro k j
    by_cases hj : j = i
    · subst hj
      have := F.reader_iff k j
      rw [hfd] at this
      simpa using this
    · simpa [hj] using F.reader_iff k j
  · intro j k h
    obtain ⟨hj, h⟩ := hclient j k h
    simpa [hj] using F.fd_opened j k h
  · intro j k h
    obtain ⟨hj, h⟩ := hclient j k h
    simpa [hj] using F.fd_pid j k h

theorem files_die {i : Nat} (F : Files s) (h : die s i = some t) : Files t := by
  simp only [die, Option.ite_none_right_eq_some] at h
  obtain ⟨hl, h⟩ := h
  split at h
  · rename_i hfd
    cases h
    exact F.dead hl hfd
  · rename_i k hfd
    cases h
    have F' := (F.closeClient hfd).dead (i := i) (by simpa [Client.Live] using hl) (by simp)
    simpa [State.setClient, State.setInode] using F'

/-- The server goes on without opening or closing a FIFO. -/
theorem Files.of_server (F : Files s) (hclient : t.client = s.client) (hproc : t.proc = s.proc)
    (hpath : t.path = s.path) (hinode : t.inode = s.inode) (hnext : t.nextInode = s.nextInode)
    (hfd : t.server.fd? = s.server.fd?)
    (hreq : ∀ r k, t.server.req? = some r → s.server.fd? = some k → (s.inode k).pid = r.pid) :
    Files t where
  proc_iff := by rw [hproc, hclient]; exact F.proc_iff
  reader_iff := by rw [hinode, hclient]; exact F.reader_iff
  fd_opened := by rw [hclient]; exact F.fd_opened
  fd_pid := by rw [hinode, hclient]; exact F.fd_pid
  path_pid := by rw [hpath, hinode, hnext]; exact F.path_pid
  writer_iff := by rw [hinode, hfd]; exact F.writer_iff
  server_pid r k hr hk := by rw [hinode]; exact hreq r k hr (hfd ▸ hk)
  fresh := by rw [hinode, hnext]; exact F.fresh

theorem files_serverRead (F : Files s) (h : serverRead s = some t) : Files t := by
  obtain ⟨req, rest, hs, hq, rfl⟩ := serverRead_cases h
  exact F.of_server rfl rfl rfl rfl rfl (by simp [hs, ServerPc.fd?])
    (by simp [hs, ServerPc.fd?])

/-- The server opens or closes a FIFO. -/
theorem Files.setWriter (F : Files s) {k : Nat} {f : Fifo} {pc : ServerPc}
    (hpid : f.pid = (s.inode k).pid) (hr : f.readers = (s.inode k).readers) (hk : k < s.nextInode)
    (hw : ∀ l, ((s.setInode k f).inode l).writer = true ↔ pc.fd? = some l)
    (hreq : ∀ r l, pc.req? = some r → pc.fd? = some l → (s.inode l).pid = r.pid) :
    Files { s.setInode k f with server := pc } where
  proc_iff := F.proc_iff
  reader_iff l i := by
    have := F.reader_iff l i
    rw [← State.setInode_congr Fifo.readers hr] at this
    exact this
  fd_opened := F.fd_opened
  fd_pid i l h := by
    have := F.fd_pid i l h
    rw [← State.setInode_congr Fifo.pid hpid] at this
    exact this
  path_pid p l h := by
    have := F.path_pid p l h
    rw [← State.setInode_congr Fifo.pid hpid] at this
    exact this
  writer_iff := hw
  server_pid r l hr hl := by
    have := hreq r l hr hl
    rw [← State.setInode_congr Fifo.pid hpid] at this
    exact this
  fresh l hl := by
    have hlk : l ≠ k := by
      rintro rfl
      exact absurd hk (Nat.not_lt.mpr hl)
    simpa [hlk] using F.fresh l hl

theorem files_serverOpen (F : Files s) (h : serverOpen s = some t) : Files t := by
  obtain ⟨req, hs, hcases⟩ := serverOpen_cases h
  have hno : ∀ l, (s.inode l).writer = false := by
    intro l
    have := F.writer_iff l
    rw [hs] at this
    simpa [ServerPc.fd?] using this
  obtain rfl | ⟨k, hpath, rfl⟩ := hcases
  · exact F.of_server rfl rfl rfl rfl rfl (by simp [hs, ServerPc.fd?])
      (by simp [ServerPc.req?])
  · obtain ⟨hpid, hlt⟩ := F.path_pid _ k hpath
    have hpc : ∀ pc, pc = ServerPc.openWait req k (s.inode k).rCounter ∨ pc = .write req k →
        pc.fd? = some k ∧ pc.req? = some req := by
      rintro pc (rfl | rfl) <;> exact ⟨rfl, rfl⟩
    obtain ⟨hfd, hreq⟩ := hpc (if (s.inode k).readers = [] then
      .openWait req k (s.inode k).rCounter else .write req k) (by split <;> simp)
    refine F.setWriter rfl rfl hlt ?_ ?_
    · intro l
      rw [hfd]
      by_cases hl : l = k
      · subst hl; simp
      · simp [hl, Ne.symm hl, hno]
    · intro r l hr hl
      rw [hreq] at hr
      rw [hfd] at hl
      cases hr
      cases hl
      exact hpid

theorem files_serverOpenDone (F : Files s) (h : serverOpenDone s = some t) : Files t := by
  obtain ⟨req, k, n, hs, -, rfl⟩ := serverOpenDone_cases h
  refine F.of_server rfl rfl rfl rfl rfl (by simp [hs, ServerPc.fd?]) ?_
  intro r l hr hl
  exact F.server_pid r l (by rw [hs]; exact hr) hl

theorem files_serverWrite (F : Files s) (h : serverWrite s = some t) : Files t := by
  simp only [serverWrite] at h
  split at h
  · rename_i req k hs
    have hk : k < s.nextInode := F.lt_of_server (by rw [hs]; rfl)
    have hfd : ∀ r l, (ServerPc.close req k).req? = some r → s.server.fd? = some l →
        (s.inode l).pid = r.pid := fun r l hr hl => F.server_pid r l (by rw [hs]; exact hr) hl
    cases h
    split
    · exact F.of_server rfl rfl rfl rfl rfl (by simp [hs, ServerPc.fd?]) hfd
    · have F' := F.setData
        (f := { s.inode k with data := (s.inode k).data ++ [⟨s.seqNum, req.sender⟩] })
        rfl rfl rfl hk
      refine F'.of_server rfl rfl rfl rfl rfl (by simp [hs, ServerPc.fd?]) ?_
      intro r l hr hl
      rw [State.setInode_congr Fifo.pid (by rfl)]
      exact hfd r l hr hl
  · cases h

theorem files_serverClose (F : Files s) (h : serverClose s = some t) : Files t := by
  obtain ⟨req, k, hs, rfl⟩ := serverClose_cases h
  have hfd : s.server.fd? = some k := by rw [hs]; rfl
  have F' : Files { s.setInode k { s.inode k with writer := false }.release with
      server := .read } := by
    refine F.setWriter (by simp) (by simp) (F.lt_of_server hfd) ?_ (by simp [ServerPc.req?])
    intro l
    by_cases hl : l = k
    · subst hl; simp [ServerPc.fd?]
    · have := F.writer_iff l
      rw [hfd] at this
      simpa [hl, Ne.symm hl, ServerPc.fd?] using this
  exact F'.of_server rfl rfl rfl rfl rfl rfl (by simp [ServerPc.req?])

end

end Tlpi.FifoSeqnum
