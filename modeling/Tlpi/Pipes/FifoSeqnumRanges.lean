import Mathlib.Data.Set.Lattice
import Mathlib.Order.CompletePartialOrder
import Tlpi.Pipes.FifoSeqnumLemmas

/-!
# Disjoint ranges

As long as no client starts with the PID of an outstanding request, a response can be read only by
the client that sent the request, so that every client gets its own range.
-/

namespace Tlpi.FifoSeqnum

structure Requests (s : State) : Prop where
  nodup : (s.outstanding.map (·.pid)).Nodup
  unsent : ∀ i, (s.client i).pc.unsent = true →
    (s.client i).resp = none ∧ ∀ r ∈ s.outstanding, r.pid ≠ (s.client i).pid
  unanswered : ∀ r ∈ s.unanswered, ∀ i, (s.client i).Live → (s.client i).pid = r.pid →
    (s.client i).seqLen = r.seqLen ∧ r.sender = i ∧ (s.client i).resp = none ∧
      ∀ k, (s.client i).clientFd = some k → (s.inode k).data = []
  data_owned : ∀ k, (s.inode k).data ≠ [] → (s.inode k).readers ≠ [] ∨
    ∃ r, s.server = .close r k ∧ ∀ i, (s.client i).Live → (s.client i).pid ≠ r.pid

/-- The length of the sequence that the server has answered and not yet counted. -/
def ServerPc.uncounted : ServerPc → Nat
  | .close req _ => req.seqLen
  | _ => 0

/-- Client `i` has read, or can read, the response `v`. -/
def State.Holds (s : State) (i : Nat) (v : Response) : Prop :=
  (s.client i).resp = some v ∨
    ∃ k, (s.client i).clientFd = some k ∧ (s.inode k).data = [v]

structure Ranges (s : State) : Prop where
  single : ∀ k, (s.inode k).data.length ≤ 1
  seqNum : s.seqNum = wrap32 (s.allocated - s.server.uncounted)
  own : ∀ i v, s.Holds i v → v.replyTo = i
  bound : s.allocated < 2 ^ 31 → ∀ i v, s.Holds i v → v.seqNum + (s.client i).seqLen ≤ s.allocated
  disjoint : s.allocated < 2 ^ 31 → ∀ i j v w, i ≠ j → s.Holds i v → s.Holds j w →
    v.seqNum + (s.client i).seqLen ≤ w.seqNum ∨ w.seqNum + (s.client j).seqLen ≤ v.seqNum

structure Inv (s : State) : Prop where
  files : Files s
  requests : Requests s
  ranges : Ranges s

section
variable {s t : State}

theorem State.unanswered_subset (s : State) : s.unanswered ⊆ s.outstanding := by
  intro r hr
  rcases List.mem_append.mp hr with h | h
  · refine List.mem_append_left _ ?_
    cases hs : s.server <;> simp_all [ServerPc.unanswered?, ServerPc.req?]
  · exact List.mem_append_right _ h

theorem inv_initial : Inv initial where
  files := files_initial
  requests :=
    { nodup := List.nodup_nil
      unsent := fun i h => by simp [initial, ClientPc.unsent] at h
      unanswered := fun r h => by simp [State.unanswered, initial, ServerPc.unanswered?] at h
      data_owned := fun k h => absurd rfl h }
  ranges :=
    { single := fun k => Nat.zero_le 1
      seqNum := rfl
      own := fun i v h => by simp [State.Holds, initial] at h
      bound := fun _ i v h => by simp [State.Holds, initial] at h
      disjoint := fun _ i j v w _ h => by simp [State.Holds, initial] at h }

/-- Nothing new can be read. -/
theorem Ranges.mono (R : Ranges s) (hsingle : ∀ k, (t.inode k).data.length ≤ 1)
    (hseq : t.seqNum = wrap32 (t.allocated - t.server.uncounted))
    (halloc : t.allocated = s.allocated)
    (hholds : ∀ i v, t.Holds i v → s.Holds i v ∧ (t.client i).seqLen = (s.client i).seqLen) :
    Ranges t where
  single := hsingle
  seqNum := hseq
  own i v hi := R.own i v (hholds i v hi).1
  bound hlt i v hi := by
    obtain ⟨hi', hlen⟩ := hholds i v hi
    rw [hlen, halloc]
    exact R.bound (halloc ▸ hlt) i v hi'
  disjoint hlt i j v w hij hi hj := by
    obtain ⟨hi', hli⟩ := hholds i v hi
    obtain ⟨hj', hlj⟩ := hholds j w hj
    rw [hli, hlj]
    exact R.disjoint (halloc ▸ hlt) i j v w hij hi' hj'

/-! ### Steps of a client -/

/-- Client `i` goes on to `pc`, and no FIFO changes. -/
structure PcStep (s t : State) (i : Nat) (pc : ClientPc) : Prop where
  serverFifo : t.serverFifo = s.serverFifo
  server : t.server = s.server
  inode : t.inode = s.inode
  seqNum : t.seqNum = s.seqNum
  allocated : t.allocated = s.allocated
  self : t.client i = { s.client i with pc }
  other : ∀ j, j ≠ i → t.client j = s.client j
  live : (s.client i).Live
  unsent : pc.unsent = true → (s.client i).pc.unsent = true

namespace PcStep

variable {i : Nat} {pc : ClientPc}

theorem fields (P : PcStep s t i pc) (j : Nat) : (t.client j).pid = (s.client j).pid ∧
    (t.client j).seqLen = (s.client j).seqLen ∧ (t.client j).resp = (s.client j).resp ∧
    (t.client j).clientFd = (s.client j).clientFd ∧
    ((t.client j).Live → (s.client j).Live) ∧
    ((t.client j).pc.unsent = true → (s.client j).pc.unsent = true) := by
  by_cases hj : j = i
  · subst hj
    rw [P.self]
    exact ⟨rfl, rfl, rfl, rfl, fun _ => P.live, P.unsent⟩
  · rw [P.other j hj]
    exact ⟨rfl, rfl, rfl, rfl, id, id⟩

theorem requests (P : PcStep s t i pc) (H : Inv s) : Requests t := by
  have hout : t.outstanding = s.outstanding := by
    simp only [State.outstanding, P.server, P.serverFifo]
  have hun : t.unanswered = s.unanswered := by
    simp only [State.unanswered, P.server, P.serverFifo]
  refine ⟨?_, ?_, ?_, ?_⟩
  · rw [hout]; exact H.requests.nodup
  · intro j hj
    obtain ⟨hpid, -, hresp, -, -, hu⟩ := P.fields j
    rw [hout, hpid, hresp]
    exact H.requests.unsent j (hu hj)
  · intro r hr j hl hp
    obtain ⟨hpid, hlen, hresp, hfd, hlive, -⟩ := P.fields j
    rw [hlen, hresp, hfd, P.inode]
    exact H.requests.unanswered r (hun ▸ hr) j (hlive hl) (hpid ▸ hp)
  · intro k hk
    rw [P.inode] at hk ⊢
    refine (H.requests.data_owned k hk).imp_right ?_
    rintro ⟨r, hs, hno⟩
    refine ⟨r, P.server ▸ hs, fun j hl => ?_⟩
    obtain ⟨hpid, -, -, -, hlive, -⟩ := P.fields j
    rw [hpid]
    exact hno j (hlive hl)

theorem ranges (P : PcStep s t i pc) (H : Inv s) : Ranges t := by
  refine H.ranges.mono ?_ ?_ P.allocated ?_
  · rw [P.inode]; exact H.ranges.single
  · rw [P.seqNum, P.allocated, P.server]; exact H.ranges.seqNum
  · intro j v hj
    obtain ⟨-, hlen, hresp, hfd, -, -⟩ := P.fields j
    refine ⟨?_, hlen⟩
    rw [State.Holds, hresp, hfd, P.inode] at hj
    exact hj

theorem setPath (P : PcStep s t i pc) (path : Nat → Option Nat) :
    PcStep s { t with path } i pc :=
  ⟨P.serverFifo, P.server, P.inode, P.seqNum, P.allocated, P.self, P.other, P.live, P.unsent⟩

theorem inv (P : PcStep s t i pc) (H : Inv s) (F : Files t) : Inv t := ⟨F, P.requests H, P.ranges H⟩

end PcStep

theorem pcStep_setClient {i : Nat} (pc : ClientPc) (hlive : (s.client i).Live)
    (hunsent : pc.unsent = true → (s.client i).pc.unsent = true) :
    PcStep s (s.setClient i { s.client i with pc }) i pc :=
  ⟨rfl, rfl, rfl, rfl, rfl, by simp, fun j hj => by simp [hj], hlive, hunsent⟩

theorem inv_openServer {i : Nat} (H : Inv s) (h : openServer s i = some t) : Inv t := by
  have F := files_openServer H.files h
  simp only [openServer, Option.ite_none_right_eq_some, Option.some.injEq] at h
  obtain ⟨hpc, rfl⟩ := h
  exact (pcStep_setClient .request (by simp [Client.Live, hpc])
    (by simp [hpc, ClientPc.unsent])).inv H F

theorem inv_openDone {i : Nat} (H : Inv s) (h : openDone s i = some t) : Inv t := by
  have F := files_openDone H.files h
  obtain ⟨n, k, -, hfd, -, rfl⟩ := openDone_cases h
  exact (pcStep_setClient .read (H.files.live hfd) (by simp [ClientPc.unsent])).inv H F

theorem inv_fail {i : Nat} (H : Inv s) (h : fail s i = some t) : Inv t := by
  have F := files_fail H.files h
  simp only [fail, Option.ite_none_right_eq_some, Option.some.injEq] at h
  obtain ⟨hpc, rfl⟩ := h
  refine (pcStep_setClient .exit ?_ (by simp [ClientPc.unsent])).inv H F
  rcases hpc with h | h | h <;> simp [Client.Live, h]

theorem inv_exit {i : Nat} (H : Inv s) (h : exit s i = some t) : Inv t := by
  have F := files_exit H.files h
  simp only [exit, Option.ite_none_right_eq_some, Option.some.injEq] at h
  obtain ⟨hpc, rfl⟩ := h
  exact ((pcStep_setClient .exited (by simp [Client.Live, hpc])
    (by simp [ClientPc.unsent])).setPath _).inv H F

theorem inv_start {i pid seqLen : Nat} (H : Inv s) (h : start s i pid seqLen = some t)
    (hok : ∀ r ∈ s.outstanding, r.pid ≠ pid) : Inv t := by
  have F := files_start H.files h
  simp only [start, Option.ite_none_right_eq_some, Option.some.injEq] at h
  obtain ⟨-, rfl⟩ := h
  refine ⟨F, ⟨H.requests.nodup, ?_, ?_, ?_⟩, ?_⟩
  · intro j hu
    by_cases hj : j = i
    · subst hj
      exact ⟨by simp, fun r hr => by simpa using hok r hr⟩
    · simp only [State.setClient_ne _ _ hj] at hu ⊢
      exact H.requests.unsent j hu
  · intro r hr j hl hp
    by_cases hj : j = i
    · subst hj
      exact absurd (by simpa using hp.symm) (hok r (s.unanswered_subset hr))
    · simp only [State.setClient_ne _ _ hj] at hl hp ⊢
      exact H.requests.unanswered r hr j hl hp
  · intro k hk
    refine (H.requests.data_owned k hk).imp_right ?_
    rintro ⟨r, hs, hno⟩
    refine ⟨r, hs, fun j => ?_⟩
    by_cases hj : j = i
    · subst hj
      have hr : r ∈ s.outstanding := by
        rw [State.outstanding_of_req (by rw [hs]; rfl)]
        exact List.mem_cons_self
      simpa using fun _ => (hok r hr).symm
    · simpa [hj] using hno j
  · refine H.ranges.mono H.ranges.single H.ranges.seqNum rfl ?_
    intro j v hj
    by_cases hji : j = i
    · subst hji
      simp [State.Holds] at hj
    · simpa [State.Holds, hji] using hj

theorem inv_mkfifo {i : Nat} (H : Inv s) (h : mkfifo s i = some t) : Inv t := by
  have F := files_mkfifo H.files h
  simp only [mkfifo, Option.ite_none_right_eq_some] at h
  obtain ⟨hpc, h⟩ := h
  have hl : (s.client i).Live := by simp [Client.Live, hpc]
  have P := pcStep_setClient .openServer hl (by simp [hpc, ClientPc.unsent])
  split at h
  · cases h
    exact P.inv H F
  · cases h
    have R := P.requests H
    have G := P.ranges H
    have hnext := H.files.fresh s.nextInode le_rfl
    have hfd : ∀ j k, ((s.setClient i { s.client i with pc := .openServer }).client j).clientFd =
        some k → k ≠ s.nextInode := by
      intro j k hk
      rw [(P.fields j).2.2.2.1] at hk
      exact Nat.ne_of_lt (H.files.lt_of_fd hk)
    have hdata : ∀ k, ((s.setInode s.nextInode (emptyFifo (s.client i).pid)).inode k).data =
        (s.inode k).data := State.setInode_congr Fifo.data hnext.2.2.symm
    refine ⟨F, ⟨R.nodup, R.unsent, ?_, ?_⟩, ?_⟩
    · intro r hr j hj hp
      obtain ⟨h₁, h₂, h₃, h₄⟩ := R.unanswered r hr j hj hp
      exact ⟨h₁, h₂, h₃, fun k hk => (hdata k).trans (h₄ k hk)⟩
    · intro k hk
      have hk' : (s.inode k).data ≠ [] := fun h => hk ((hdata k).trans h)
      have hkn : k ≠ s.nextInode := by
        rintro rfl
        exact hk' hnext.2.2
      have := R.data_owned k hk'
      simpa [hkn] using this
    · refine G.mono ?_ G.seqNum rfl ?_
      · intro k
        exact (hdata k).symm ▸ H.ranges.single k
      · intro j v hj
        refine ⟨hj.imp_right ?_, rfl⟩
        rintro ⟨k, hk, hd⟩
        exact ⟨k, hk, (hdata k).symm.trans hd⟩

theorem inv_request {i : Nat} (H : Inv s) (h : request s i = some t) : Inv t := by
  have F := files_request H.files h
  simp only [request, Option.ite_none_right_eq_some, Option.some.injEq] at h
  obtain ⟨hpc, rfl⟩ := h
  have hl : (s.client i).Live := by simp [Client.Live, hpc]
  have hu : (s.client i).pc.unsent = true := by simp [hpc, ClientPc.unsent]
  obtain ⟨hresp, hnew⟩ := H.requests.unsent i hu
  have P := pcStep_setClient .openClient hl (by simp [ClientPc.unsent])
  have R := P.requests H
  have G := P.ranges H
  refine ⟨F, ⟨?_, ?_, ?_, R.data_owned⟩, ⟨G.single, G.seqNum, G.own, G.bound, G.disjoint⟩⟩
  · rw [State.outstanding, ← List.append_assoc, List.map_append]
    refine H.requests.nodup.append (List.nodup_singleton (s.client i).pid) ?_
    rw [List.map_singleton, List.disjoint_singleton]
    intro hmem
    obtain ⟨r, hr, hp⟩ := List.mem_map.mp hmem
    exact hnew r hr hp
  · intro j hj
    obtain ⟨h₁, h₂⟩ := R.unsent j hj
    refine ⟨h₁, fun r hr => ?_⟩
    simp only [State.outstanding, ← List.append_assoc] at hr
    rcases List.mem_append.mp hr with hr | hr
    · exact h₂ r hr
    · obtain rfl := List.mem_singleton.mp hr
      intro hp
      have hji : j = i := by
        refine H.files.unique ((P.fields j).2.2.2.2.1 (Client.live_of_unsent hj)) hl ?_
        rw [← (P.fields j).1]
        exact hp.symm
      subst hji
      simp [ClientPc.unsent] at hj
  · intro r hr j hj hp
    simp only [State.unanswered, ← List.append_assoc] at hr
    rcases List.mem_append.mp hr with hr | hr
    · exact R.unanswered r hr j hj hp
    · obtain rfl := List.mem_singleton.mp hr
      have hji : j = i := by
        refine H.files.unique ((P.fields j).2.2.2.2.1 hj) hl ?_
        rw [← (P.fields j).1]
        exact hp
      subst hji
      refine ⟨by simp, rfl, by simpa using hresp, fun k hk => ?_⟩
      have := H.files.fd_opened j k (by simpa using hk)
      simp [hpc, ClientPc.opened] at this

/-- A FIFO that a client is about to open has nothing in it. -/
theorem Inv.data_of_path (H : Inv s) {i k : Nat} (hl : (s.client i).Live)
    (hfd : (s.client i).clientFd = none) (hpath : s.path (s.client i).pid = some k) :
    (s.inode k).readers = [] ∧ (s.inode k).data = [] := by
  have hpid := (H.files.path_pid _ k hpath).1
  have hr : (s.inode k).readers = [] := by
    rw [List.eq_nil_iff_forall_not_mem]
    intro j hj
    have hjk := (H.files.reader_iff k j).mp hj
    have hji : j = i := by
      refine H.files.unique (H.files.live hjk) hl ?_
      rw [← H.files.fd_pid j k hjk, hpid]
    rw [hji, hfd] at hjk
    cases hjk
  refine ⟨hr, ?_⟩
  by_contra hne
  rcases H.requests.data_owned k hne with h | ⟨r, hs, hno⟩
  · exact h hr
  · refine hno i hl ?_
    rw [← hpid]
    exact H.files.server_pid r k (by rw [hs]; rfl) (by rw [hs]; rfl)

/-- Client `i`, which has sent its request, becomes `c`. FIFOs keep their contents or lose them, and
the client holds nothing new. -/
structure ClientStep (s t : State) (i : Nat) (c : Client) : Prop where
  serverFifo : t.serverFifo = s.serverFifo
  server : t.server = s.server
  seqNum : t.seqNum = s.seqNum
  allocated : t.allocated = s.allocated
  client : t.client = Function.update s.client i c
  seqLen : c.seqLen = (s.client i).seqLen
  sent : c.pc.unsent = false
  data : ∀ k, (t.inode k).data = [] ∨ (t.inode k).data = (s.inode k).data
  unanswered : c.Live → ∀ r ∈ s.unanswered, c.pid = r.pid → c.seqLen = r.seqLen ∧
    r.sender = i ∧ c.resp = none ∧ ∀ k, c.clientFd = some k → (t.inode k).data = []
  data_owned : ∀ k, (t.inode k).data ≠ [] → (t.inode k).readers ≠ [] ∨
    ∃ r, s.server = .close r k ∧ (c.Live → c.pid ≠ r.pid) ∧
      ∀ j, j ≠ i → (s.client j).Live → (s.client j).pid ≠ r.pid
  holds : ∀ v, t.Holds i v → s.Holds i v

namespace ClientStep

variable {i : Nat} {c : Client}

theorem self (C : ClientStep s t i c) : t.client i = c := by rw [C.client, Function.update_self]

theorem other (C : ClientStep s t i c) {j : Nat} (hj : j ≠ i) : t.client j = s.client j := by
  rw [C.client, Function.update_of_ne hj]

theorem requests (C : ClientStep s t i c) (H : Inv s) : Requests t := by
  have hout : t.outstanding = s.outstanding := by
    simp only [State.outstanding, C.server, C.serverFifo]
  have hun : t.unanswered = s.unanswered := by
    simp only [State.unanswered, C.server, C.serverFifo]
  refine ⟨hout ▸ H.requests.nodup, fun j hu => ?_, fun r hr j hl hp => ?_, fun k hk => ?_⟩
  · by_cases hj : j = i
    · subst hj
      rw [C.self, C.sent] at hu
      cases hu
    · rw [C.other hj] at hu ⊢
      exact hout ▸ H.requests.unsent j hu
  · rw [hun] at hr
    by_cases hj : j = i
    · subst hj
      rw [C.self] at hl hp ⊢
      exact C.unanswered hl r hr hp
    · rw [C.other hj] at hl hp ⊢
      obtain ⟨h₁, h₂, h₃, h₄⟩ := H.requests.unanswered r hr j hl hp
      refine ⟨h₁, h₂, h₃, fun k hk => ?_⟩
      rcases C.data k with h | h
      · exact h
      · exact h.trans (h₄ k hk)
  · refine (C.data_owned k hk).imp_right ?_
    rintro ⟨r, hs, hself, hno⟩
    refine ⟨r, C.server ▸ hs, fun j hl => ?_⟩
    by_cases hj : j = i
    · subst hj
      rw [C.self] at hl ⊢
      exact hself hl
    · rw [C.other hj] at hl ⊢
      exact hno j hj hl

theorem ranges (C : ClientStep s t i c) (H : Inv s) : Ranges t := by
  refine H.ranges.mono (fun k => ?_) ?_ C.allocated fun j v hv => ?_
  · rcases C.data k with h | h
    · exact h.symm ▸ Nat.zero_le 1
    · exact h.symm ▸ H.ranges.single k
  · rw [C.seqNum, C.allocated, C.server]
    exact H.ranges.seqNum
  · by_cases hj : j = i
    · subst hj
      rw [C.self]
      exact ⟨C.holds v hv, C.seqLen⟩
    · rw [State.Holds, C.other hj] at hv
      rw [C.other hj]
      refine ⟨hv.imp_right ?_, rfl⟩
      rintro ⟨k, hk, hd⟩
      rcases C.data k with h | h
      · rw [h] at hd
        cases hd
      · exact ⟨k, hk, h.symm.trans hd⟩

end ClientStep

theorem Inv.clientStep (H : Inv s) (F : Files t) {i : Nat} {c : Client} (C : ClientStep s t i c) :
    Inv t :=
  ⟨F, C.requests H, C.ranges H⟩

/-- What is in a FIFO that a step leaves alone has an owner as before. -/
theorem Inv.data_owned (H : Inv s) {i k : Nat} (hl : (s.client i).Live)
    (hne : (s.inode k).data ≠ []) :
    (s.inode k).readers ≠ [] ∨ ∃ r, s.server = .close r k ∧ (s.client i).pid ≠ r.pid ∧
      ∀ j, j ≠ i → (s.client j).Live → (s.client j).pid ≠ r.pid := by
  refine (H.requests.data_owned k hne).imp_right ?_
  rintro ⟨r, hs, hno⟩
  exact ⟨r, hs, hno i hl, fun j _ => hno j⟩

theorem inv_openClient {i : Nat} (H : Inv s) (h : openClient s i = some t) : Inv t := by
  have F := files_openClient H.files h
  obtain ⟨hpc, hcases⟩ := openClient_cases h
  have hl : (s.client i).Live := by simp [Client.Live, hpc]
  obtain rfl | ⟨k, hpath, rfl⟩ := hcases
  · exact (pcStep_setClient .exit hl (by simp [ClientPc.unsent])).inv H F
  · have hfd : (s.client i).clientFd = none := by
      by_contra hne
      obtain ⟨l, hl'⟩ := Option.ne_none_iff_exists'.mp hne
      simpa [hpc, ClientPc.opened] using H.files.fd_opened i l hl'
    obtain ⟨-, hdata⟩ := H.data_of_path hl hfd hpath
    have hsame : ∀ l, ((s.setInode k { s.inode k with
        readers := i :: (s.inode k).readers, rCounter := (s.inode k).rCounter + 1 }).inode l).data =
          (s.inode l).data := State.setInode_congr Fifo.data rfl
    refine H.clientStep F
      ⟨rfl, rfl, rfl, rfl, rfl, rfl, ?_, fun l => .inr (hsame l), ?_, ?_, ?_⟩
    · split <;> rfl
    · intro _ r hr hp
      obtain ⟨h₁, h₂, h₃, -⟩ := H.requests.unanswered r hr i hl hp
      refine ⟨h₁, h₂, h₃, fun l hl' => ?_⟩
      obtain rfl : k = l := Option.some.inj hl'
      exact (hsame k).trans hdata
    · intro l hne
      have hne' : (s.inode l).data ≠ [] := fun h => hne ((hsame l).trans h)
      have hlk : l ≠ k := by
        rintro rfl
        exact hne' hdata
      refine (H.data_owned hl hne').imp (by simp [hlk]) ?_
      rintro ⟨r, hs, hi, hno⟩
      exact ⟨r, hs, fun _ => hi, hno⟩
    · intro v hv
      rw [State.Holds, State.setClient_self] at hv
      refine hv.imp_right ?_
      rintro ⟨l, hl', hd⟩
      obtain rfl : k = l := Option.some.inj hl'
      rw [State.setClient_inode, hsame, hdata] at hd
      cases hd

theorem inv_read {i : Nat} (H : Inv s) (h : read s i = some t) : Inv t := by
  have F := files_read H.files h
  obtain ⟨k, -, hfd, hcases⟩ := read_cases h
  have hl := H.files.live hfd
  obtain ⟨v, rest, hdata, rfl⟩ | ⟨-, rfl⟩ := hcases
  · obtain rfl : rest = [] := by
      have := H.ranges.single k
      rw [hdata] at this
      simpa using this
    have hempty : ∀ l, ((s.setInode k { s.inode k with data := [] }).inode l).data = [] ∨
        l ≠ k ∧ ((s.setInode k { s.inode k with data := [] }).inode l).data = (s.inode l).data := by
      intro l
      by_cases hlk : l = k
      · subst hlk; simp
      · exact .inr ⟨hlk, by simp [hlk]⟩
    refine H.clientStep F ⟨rfl, rfl, rfl, rfl, rfl, rfl, rfl,
      fun l => (hempty l).imp_right And.right, ?_, ?_, ?_⟩
    · intro _ r hr hp
      -- an unanswered client would find nothing
      have := (H.requests.unanswered r hr i hl hp).2.2.2 k hfd
      rw [hdata] at this
      cases this
    · intro l hne
      rcases hempty l with h | ⟨hlk, h⟩
      · exact absurd h hne
      · refine (H.data_owned hl fun h' => hne (h.trans h')).imp (by simp [hlk]) ?_
        rintro ⟨r, hs, hi, hno⟩
        exact ⟨r, hs, fun _ => hi, hno⟩
    · intro w hw
      rw [State.Holds, State.setClient_self] at hw
      refine .inr ⟨k, hfd, ?_⟩
      rcases hw with h | ⟨l, hl', hd⟩
      · rw [hdata, Option.some.inj h]
      · obtain rfl : k = l := Option.some.inj (hfd.symm.trans hl')
        simp at hd
  · exact (pcStep_setClient .exit hl (by simp [ClientPc.unsent])).inv H F

/-- The end of a client: FIFOs lose their contents or keep them. -/
theorem Inv.dead (H : Inv s) {i : Nat} {c : Client} {inode : Nat → Fifo} {proc : Nat → Option Nat}
    (hc : c = { s.client i with pc := .dead, clientFd := none })
    (F : Files { s.setClient i c with inode, proc })
    (hdata : ∀ k, (inode k).data = [] ∨ (inode k).data = (s.inode k).data)
    (howned : ∀ k, (inode k).data ≠ [] → (inode k).readers ≠ [] ∨
      ∃ r, s.server = .close r k ∧ ∀ j, j ≠ i → (s.client j).Live → (s.client j).pid ≠ r.pid) :
    Inv { s.setClient i c with inode, proc } := by
  subst hc
  refine H.clientStep F
    ⟨rfl, rfl, rfl, rfl, rfl, rfl, rfl, hdata, fun h => absurd rfl h.2, ?_, ?_⟩
  · intro k hne
    refine (howned k hne).imp_right ?_
    rintro ⟨r, hs, hno⟩
    exact ⟨r, hs, fun h => absurd rfl h.2, hno⟩
  · intro v hv
    rw [State.Holds] at hv
    simp only [State.setClient_self, reduceCtorEq, false_and, exists_false, or_false] at hv
    exact .inl hv

theorem inv_die {i : Nat} (H : Inv s) (h : die s i = some t) : Inv t := by
  have F := files_die H.files h
  simp only [die, Option.ite_none_right_eq_some] at h
  obtain ⟨hl, h⟩ := h
  have hl : (s.client i).Live := hl
  split at h
  · rename_i hfd
    cases h
    refine H.dead rfl F (fun _ => .inr rfl) fun k hne => ?_
    refine (H.requests.data_owned k hne).imp_right ?_
    rintro ⟨r, hs, hno⟩
    exact ⟨r, hs, fun j _ => hno j⟩
  · rename_i k hfd
    cases h
    refine H.dead rfl F (fun l => ?_) fun l hne => ?_
    · by_cases hlk : l = k
      · subst hlk
        simpa [State.setInode] using Fifo.release_data _
      · simp [hlk]
    · by_cases hlk : l = k
      · subst hlk
        have hne' : { s.inode l with
            readers := (s.inode l).readers.filter (· ≠ i) }.release.data ≠ [] := by
          simpa [State.setInode] using hne
        by_cases hr : (s.inode l).readers.filter (· ≠ i) = []
        · -- the last reader is gone, so the server has the FIFO open, and has answered
          have hw : (s.inode l).writer = true := by
            by_contra hw
            rw [Fifo.release, if_pos ⟨hr, Bool.eq_false_iff.mpr hw⟩] at hne'
            exact hne' rfl
          have hdata : (s.inode l).data ≠ [] := by
            rcases Fifo.release_data { s.inode l with
              readers := (s.inode l).readers.filter (· ≠ i) } with h | h
            · exact absurd h hne'
            · rw [h] at hne'
              exact hne'
          have hpid := H.files.fd_pid i l hfd
          have hsfd := (H.files.writer_iff l).mp hw
          have hclose : ∃ r, s.server = .close r l := by
            cases hs : s.server with
            | read | «open» => rw [hs] at hsfd; cases hsfd
            | openWait r | write r =>
              have hr' : r ∈ s.unanswered := State.mem_unanswered (by rw [hs]; rfl)
              have hp := H.files.server_pid r l (by rw [hs]; rfl) hsfd
              exact absurd ((H.requests.unanswered r hr' i hl (hpid ▸ hp)).2.2.2 l hfd) hdata
            | close r l' =>
              rw [hs] at hsfd
              obtain rfl : l' = l := by simpa [ServerPc.fd?] using hsfd
              exact ⟨r, rfl⟩
          obtain ⟨r, hs⟩ := hclose
          have hp := H.files.server_pid r l (by rw [hs]; rfl) hsfd
          refine .inr ⟨r, hs, fun j hj hlj hpj => hj (H.files.unique hlj hl ?_)⟩
          rw [hpj, ← hp, hpid]
        · exact .inl (by simpa [State.setInode] using hr)
      · have hne' : (s.inode l).data ≠ [] := by simpa [State.setInode, hlk] using hne
        refine (H.requests.data_owned l hne').imp ?_ ?_
        · simp [hlk]
        · rintro ⟨r, hs, hno⟩
          exact ⟨r, hs, fun j _ => hno j⟩

/-! ### Steps of the server -/

/-- The server moves on within a request, or to the next one, without answering. -/
theorem Inv.of_server (H : Inv s) (F : Files t) (hclient : t.client = s.client)
    (hdata : ∀ k, (t.inode k).data = (s.inode k).data)
    (hreaders : ∀ k, (t.inode k).readers = (s.inode k).readers)
    (hseq : t.seqNum = s.seqNum) (halloc : t.allocated = s.allocated)
    (hout : t.outstanding.Sublist s.outstanding) (hun : t.unanswered ⊆ s.unanswered)
    (hsopen : ∀ r k, s.server ≠ .close r k) (hcount : t.server.uncounted = 0) : Inv t := by
  refine ⟨F, ⟨?_, ?_, ?_, ?_⟩, ?_⟩
  · exact H.requests.nodup.sublist (hout.map _)
  · intro i hu
    rw [hclient] at hu ⊢
    obtain ⟨h₁, h₂⟩ := H.requests.unsent i hu
    exact ⟨h₁, fun r hr => h₂ r (hout.subset hr)⟩
  · intro r hr i
    simp only [hclient, hdata]
    exact H.requests.unanswered r (hun hr) i
  · intro k hk
    rw [hdata] at hk
    rw [hreaders]
    rcases H.requests.data_owned k hk with h | ⟨r, hs, -⟩
    · exact .inl h
    · exact absurd hs (hsopen r k)
  · have hcount' : s.server.uncounted = 0 := by
      cases hs : s.server with
      | close r k => exact absurd hs (hsopen r k)
      | _ => rfl
    refine H.ranges.mono ?_ ?_ halloc ?_
    · intro k
      rw [hdata]
      exact H.ranges.single k
    · have := H.ranges.seqNum
      rw [hcount'] at this
      rw [hseq, halloc, hcount, this]
    · intro i v hi
      rw [State.Holds, hclient] at hi
      simp only [hdata] at hi
      exact ⟨hi, by rw [hclient]⟩

theorem inv_serverRead (H : Inv s) (h : serverRead s = some t) : Inv t := by
  have F := files_serverRead H.files h
  obtain ⟨req, rest, hs, hq, rfl⟩ := serverRead_cases h
  have hout : s.outstanding = req :: rest := by simp [State.outstanding, hs, hq, ServerPc.req?]
  have hun : s.unanswered = req :: rest := by
    simp [State.unanswered, hs, hq, ServerPc.unanswered?]
  refine H.of_server F rfl (fun _ => rfl) (fun _ => rfl) rfl rfl ?_ ?_ (by simp [hs]) rfl
  · rw [hout]
    exact .refl _
  · rw [hun]
    exact List.Subset.refl _

theorem inv_serverOpen (H : Inv s) (h : serverOpen s = some t) : Inv t := by
  have F := files_serverOpen H.files h
  obtain ⟨req, hs, hcases⟩ := serverOpen_cases h
  have hout : s.outstanding = req :: s.serverFifo := State.outstanding_of_req (by rw [hs]; rfl)
  have hun : s.unanswered = req :: s.serverFifo := State.unanswered_of_req (by rw [hs]; rfl)
  obtain rfl | ⟨k, hpath, rfl⟩ := hcases
  · refine H.of_server F rfl (fun _ => rfl) (fun _ => rfl) rfl rfl ?_ ?_ (by simp [hs]) rfl
    · rw [hout]
      exact List.sublist_cons_self ..
    · rw [hun]
      exact List.subset_cons_self ..
  · have hpc : ∀ pc, pc = ServerPc.openWait req k (s.inode k).rCounter ∨ pc = .write req k →
        pc.req? = some req ∧ pc.unanswered? = some req ∧ pc.uncounted = 0 := by
      rintro pc (rfl | rfl) <;> exact ⟨rfl, rfl, rfl⟩
    obtain ⟨hreq, hunans, hcount⟩ := hpc (if (s.inode k).readers = [] then
      .openWait req k (s.inode k).rCounter else .write req k) (by split <;> simp)
    refine H.of_server F rfl (State.setInode_congr Fifo.data rfl)
      (State.setInode_congr Fifo.readers rfl) rfl rfl ?_ ?_ (by simp [hs]) hcount
    · rw [hout, State.outstanding, hreq]
      exact .refl _
    · rw [hun, State.unanswered, hunans]
      exact List.Subset.refl _

theorem inv_serverOpenDone (H : Inv s) (h : serverOpenDone s = some t) : Inv t := by
  have F := files_serverOpenDone H.files h
  obtain ⟨req, k, n, hs, -, rfl⟩ := serverOpenDone_cases h
  have hout : s.outstanding = req :: s.serverFifo := State.outstanding_of_req (by rw [hs]; rfl)
  have hun : s.unanswered = req :: s.serverFifo := State.unanswered_of_req (by rw [hs]; rfl)
  refine H.of_server F rfl (fun _ => rfl) (fun _ => rfl) rfl rfl ?_ ?_ (by simp [hs]) rfl
  · rw [hout]
    exact .refl _
  · rw [hun]
    exact List.Subset.refl _

theorem inv_serverClose (H : Inv s) (h : serverClose s = some t) : Inv t := by
  have F := files_serverClose H.files h
  obtain ⟨req, k, hs, rfl⟩ := serverClose_cases h
  have hun : s.unanswered = s.serverFifo := by
    simp [State.unanswered, hs, ServerPc.unanswered?]
  have hout : s.outstanding = req :: s.serverFifo := State.outstanding_of_req (by rw [hs]; rfl)
  have hdata : ∀ l, ((s.setInode k { s.inode k with writer := false }.release).inode l).data = [] ∨
      ((s.setInode k { s.inode k with writer := false }.release).inode l).data =
        (s.inode l).data := by
    intro l
    by_cases hlk : l = k
    · subst hlk
      simpa using Fifo.release_data _
    · simp [hlk]
  refine ⟨F, ⟨?_, ?_, ?_, ?_⟩, ?_⟩
  · have := H.requests.nodup
    rw [hout] at this
    exact (List.nodup_cons.mp this).2
  · intro i hu
    obtain ⟨h₁, h₂⟩ := H.requests.unsent i hu
    refine ⟨h₁, fun r hr => h₂ r ?_⟩
    rw [hout]
    exact List.mem_cons_of_mem _ hr
  · intro r hr i hl hp
    obtain ⟨h₁, h₂, h₃, h₄⟩ := H.requests.unanswered r (hun ▸ hr) i hl hp
    refine ⟨h₁, h₂, h₃, fun l hl' => ?_⟩
    rcases hdata l with h | h
    · exact h
    · exact h.trans (h₄ l hl')
  · intro l hne
    refine .inl ?_
    by_cases hlk : l = k
    · subst hlk
      have hne' : { s.inode l with writer := false }.release.data ≠ [] := by simpa using hne
      have hr : (s.inode l).readers ≠ [] := by
        intro hr
        rw [Fifo.release, if_pos ⟨hr, rfl⟩] at hne'
        exact hne' rfl
      simpa using hr
    · have hne' : (s.inode l).data ≠ [] := by simpa [hlk] using hne
      rcases H.requests.data_owned l hne' with h | ⟨r, hs', -⟩
      · simpa [hlk] using h
      · rw [hs] at hs'
        cases hs'
        exact absurd rfl hlk
  · refine H.ranges.mono ?_ ?_ rfl ?_
    · intro l
      rcases hdata l with h | h
      · exact h.symm ▸ Nat.zero_le 1
      · exact h.symm ▸ H.ranges.single l
    · have hseq : s.seqNum = wrap 32 (s.allocated - req.seqLen) := by
        have := H.ranges.seqNum
        rwa [hs] at this
      have hnext : wrap 32 (s.seqNum + req.seqLen) = wrap 32 (s.allocated - 0) := by
        rw [hseq, wrap_add_wrap, Int.sub_add_cancel, Int.sub_zero]
      exact hnext
    · intro i v hi
      refine ⟨hi.imp_right ?_, rfl⟩
      rintro ⟨l, hl, hd⟩
      rcases hdata l with h | h
      · cases h.symm.trans hd
      · exact ⟨l, hl, h.symm.trans hd⟩

/-- The only client that can read the answer to a request is the one that sent it. -/
theorem Inv.reader_of_write (H : Inv s) {req : Request} {k i : Nat} (hs : s.server = .write req k)
    (hi : (s.client i).clientFd = some k) : (s.client i).pid = req.pid ∧
      (s.client i).seqLen = req.seqLen ∧ req.sender = i ∧ (s.client i).resp = none ∧
      (s.inode k).data = [] := by
  have hpid := H.files.server_pid req k (by rw [hs]; rfl) (by rw [hs]; rfl)
  have hr : req ∈ s.unanswered := State.mem_unanswered (by rw [hs]; rfl)
  have hp : (s.client i).pid = req.pid := by rw [← H.files.fd_pid i k hi, hpid]
  obtain ⟨h₁, h₂, h₃, h₄⟩ := H.requests.unanswered req hr i (H.files.live hi) hp
  exact ⟨hp, h₁, h₂, h₃, h₄ k hi⟩

theorem requests_serverWrite (H : Inv s) {req : Request} {k : Nat} (hs : s.server = .write req k)
    {t : State} (hserver : t.server = .close req k) (hfifo : t.serverFifo = s.serverFifo)
    (hclient : t.client = s.client)
    (hreaders : ∀ l, (t.inode l).readers = (s.inode l).readers)
    (hother : ∀ l, l ≠ k → (t.inode l).data = (s.inode l).data)
    (hk : (t.inode k).data ≠ [] → (s.inode k).readers ≠ []) : Requests t := by
  have hout : s.outstanding = req :: s.serverFifo := State.outstanding_of_req (by rw [hs]; rfl)
  have hout' : t.outstanding = req :: s.serverFifo := by
    simp [State.outstanding, hserver, hfifo, ServerPc.req?]
  have hpid := H.files.server_pid req k (by rw [hs]; rfl) (by rw [hs]; rfl)
  refine ⟨?_, ?_, ?_, ?_⟩
  · rw [hout', ← hout]; exact H.requests.nodup
  · rw [hout', ← hout, hclient]; exact H.requests.unsent
  · intro r hr i hl hp
    have hr : r ∈ s.serverFifo := by
      simpa [State.unanswered, hserver, hfifo, ServerPc.unanswered?] using hr
    rw [hclient] at hl hp ⊢
    obtain ⟨h₁, h₂, h₃, h₄⟩ := H.requests.unanswered r (List.mem_append_right _ hr) i hl hp
    refine ⟨h₁, h₂, h₃, fun l hl' => ?_⟩
    have hlk : l ≠ k := by
      rintro rfl
      have hnd := H.requests.nodup
      rw [hout, List.map_cons, List.nodup_cons] at hnd
      refine hnd.1 (List.mem_map.mpr ⟨r, hr, ?_⟩)
      rw [← hp, ← H.files.fd_pid i l hl', hpid]
    rw [hother l hlk]
    exact h₄ l hl'
  · intro l hne
    rw [hreaders]
    by_cases hlk : l = k
    · subst hlk
      exact .inl (hk hne)
    · rw [hother l hlk] at hne
      rcases H.requests.data_owned l hne with h | ⟨r, hs', -⟩
      · exact .inl h
      · rw [hs] at hs'
        cases hs'

/-- An answer adds the range behind those allocated so far, for at most one client `i`. -/
theorem Ranges.answer (R : Ranges s) {i n : Nat} (huncounted : s.server.uncounted = 0)
    (hsingle : ∀ k, (t.inode k).data.length ≤ 1) (hseq : t.seqNum = s.seqNum)
    (hcount : t.server.uncounted = n) (halloc : t.allocated = s.allocated + n)
    (hclient : t.client = s.client)
    (hholds : ∀ j v, t.Holds j v →
      s.Holds j v ∨ j = i ∧ v = ⟨s.seqNum, j⟩ ∧ (s.client j).seqLen = n) : Ranges t := by
  have hseq' : s.seqNum = wrap32 s.allocated := by
    have := R.seqNum
    rw [huncounted] at this
    simpa using this
  have hval : s.allocated + n < 2 ^ 31 → s.seqNum = s.allocated := by
    intro hlt
    rw [hseq']
    exact wrap_natCast_iff.mpr (by omega)
  have hle : s.allocated + n < 2 ^ 31 → ∀ j v, s.Holds j v →
      v.seqNum + (s.client j).seqLen ≤ s.allocated := fun hlt => R.bound (by omega)
  refine ⟨hsingle, ?_, fun j v hj => ?_, fun hlt j v hj => ?_,
    fun hlt j j' v w hjj hj hj' => ?_⟩
  · rw [hseq, hseq', hcount, halloc]
    congr 1
    push_cast
    omega
  · rcases hholds j v hj with h | ⟨-, rfl, -⟩
    · exact R.own j v h
    · rfl
  · rw [halloc] at hlt ⊢
    rw [hclient]
    rcases hholds j v hj with h | ⟨-, rfl, hlen⟩
    · have := hle hlt j v h
      push_cast
      omega
    · have := hval hlt
      push_cast
      omega
  · rw [halloc] at hlt
    rw [hclient]
    have hv := hval hlt
    rcases hholds j v hj with h | ⟨hji, rfl, -⟩ <;> rcases hholds j' w hj' with h' | ⟨hji', rfl, -⟩
    · exact R.disjoint (by omega) j j' v w hjj h h'
    · have := hle hlt j v h
      exact .inl (by dsimp only; omega)
    · have := hle hlt j' w h'
      exact .inr (by dsimp only; omega)
    · exact absurd (hji.trans hji'.symm) hjj

/-- After the write the answer can be read by the client that has the FIFO open, and nothing else is
new. -/
theorem Inv.holds_answer (H : Inv s) {req : Request} {i k : Nat} (hs : s.server = .write req k)
    (hfd : (s.client i).clientFd = some k) {j : Nat} {v : Response}
    (hj : (s.setInode k { s.inode k with
      data := (s.inode k).data ++ [⟨s.seqNum, req.sender⟩] }).Holds j v) :
    s.Holds j v ∨ j = i ∧ v = ⟨s.seqNum, j⟩ ∧ (s.client j).seqLen = req.seqLen := by
  rcases hj with h | ⟨l, hl, hd⟩
  · exact .inl (.inl h)
  · by_cases hlk : l = k
    · subst hlk
      obtain ⟨hpid, hlen, hsender, -, hdata⟩ := H.reader_of_write hs hl
      refine .inr ⟨H.files.unique (H.files.live hl) (H.files.live hfd) ?_, ?_, hlen⟩
      · rw [hpid, (H.reader_of_write hs hfd).1]
      · simp only [State.setInode_self, hdata, List.nil_append, hsender] at hd
        exact (List.cons.inj hd).1.symm
    · exact .inl (.inr ⟨l, hl, by simpa [hlk] using hd⟩)

theorem inv_serverWrite (H : Inv s) (h : serverWrite s = some t) : Inv t := by
  have F := files_serverWrite H.files h
  simp only [serverWrite] at h
  split at h
  · rename_i req k hs
    have huncounted : s.server.uncounted = 0 := by rw [hs]; rfl
    by_cases hr : (s.inode k).readers = []
    · rw [if_pos hr] at h
      cases h
      refine ⟨F, requests_serverWrite H hs rfl rfl rfl (fun _ => rfl) (fun _ _ => rfl) ?_,
        H.ranges.answer (i := 0) huncounted H.ranges.single rfl rfl rfl rfl fun j v hj => .inl hj⟩
      intro hne
      rcases H.requests.data_owned k hne with h | ⟨r, hs', -⟩
      · exact h
      · rw [hs] at hs'
        cases hs'
    · rw [if_neg hr] at h
      cases h
      obtain ⟨i, hi⟩ := List.exists_mem_of_ne_nil _ hr
      have hfd := (H.files.reader_iff k i).mp hi
      have hdata := (H.reader_of_write hs hfd).2.2.2.2
      refine ⟨F, requests_serverWrite H hs rfl rfl rfl ?_ ?_ (fun _ => hr),
        H.ranges.answer huncounted ?_ rfl rfl rfl rfl fun j v hj => H.holds_answer hs hfd hj⟩
      · exact State.setInode_congr Fifo.readers rfl
      · exact fun l hlk => by simp [hlk]
      · intro l
        by_cases hlk : l = k
        · subst hlk
          simp [hdata]
        · simpa [hlk] using H.ranges.single l
  · cases h

/-! ### Runs -/

/-- A client starts only with a PID for which no request is outstanding. -/
def NoReuse (s : State) : Label → Prop
  | .start _ pid _ => ∀ r ∈ s.outstanding, r.pid ≠ pid
  | _ => True

instance (s : State) (a : Label) : Decidable (NoReuse s a) :=
  match a with
  | .start _ pid _ => inferInstanceAs (Decidable (∀ r ∈ s.outstanding, r.pid ≠ pid))
  | .mkfifo _ | .openServer _ | .request _ | .openClient _ | .openDone _ | .read _ | .fail _
  | .exit _ | .die _ | .serverRead | .serverOpen | .serverOpenDone | .serverWrite
  | .serverClose => inferInstanceAs (Decidable True)

theorem inv_next {a : Label} (H : Inv s) (hok : NoReuse s a) (h : machine.next s a = some t) :
    Inv t := by
  cases a with
  | start => exact inv_start H h hok
  | mkfifo => exact inv_mkfifo H h
  | openServer => exact inv_openServer H h
  | request => exact inv_request H h
  | openClient => exact inv_openClient H h
  | openDone => exact inv_openDone H h
  | read => exact inv_read H h
  | fail => exact inv_fail H h
  | exit => exact inv_exit H h
  | die => exact inv_die H h
  | serverRead => exact inv_serverRead H h
  | serverOpen => exact inv_serverOpen H h
  | serverOpenDone => exact inv_serverOpenDone H h
  | serverWrite => exact inv_serverWrite H h
  | serverClose => exact inv_serverClose H h

theorem reachable_inv (h : machine.ReachableBy NoReuse initial s) : Inv s :=
  h.invariant inv_initial fun _ _ _ H hok hn => inv_next H hok hn

end

def INT_MAX : Nat := 2 ^ 31 - 1

/-- Any two clients that have read a response have disjoint ranges. -/
def DisjointRanges (s : State) : Prop :=
  ∀ i j a b, i ≠ j → (s.client i).range = some a → (s.client j).range = some b → Disjoint a b

/-- Every response that a client has read answers the client's own request. -/
def OwnReplies (s : State) : Prop := ∀ i v, (s.client i).resp = some v → v.replyTo = i

/-- In runs in which no client starts with the PID of an outstanding request, every client gets the
reply to its own request, and with it a range of its own. -/
theorem disjointRanges_of_noReuse {s : State} (h : machine.ReachableBy NoReuse initial s)
    (halloc : s.allocated < INT_MAX) : DisjointRanges s ∧ OwnReplies s := by
  have H := reachable_inv h
  refine ⟨fun i j a b hij ha hb => ?_, fun i v hv => H.ranges.own i v (.inl hv)⟩
  obtain ⟨v, hv, rfl⟩ := Option.map_eq_some_iff.mp ha
  obtain ⟨w, hw, rfl⟩ := Option.map_eq_some_iff.mp hb
  have hdisj := H.ranges.disjoint (by simp only [INT_MAX] at halloc; omega) i j v w hij
    (.inl hv) (.inl hw)
  rw [Set.disjoint_left]
  rintro x ⟨h₁, h₂⟩ ⟨h₃, h₄⟩
  omega

/-- Two clients one after the other, the second with the PID of the first. -/
theorem disjointRanges_two_clients : ∃ s, machine.ReachableBy NoReuse initial s ∧
    (s.client 0).resp = some ⟨0, 0⟩ ∧ (s.client 1).resp = some ⟨3, 1⟩ ∧
    DisjointRanges s ∧ OwnReplies s := by
  obtain ⟨s, hs, halloc, h₁, h₂⟩ := Machine.ReachableBy.exists_of_runBy
    (P := fun t : State => t.allocated < INT_MAX ∧ (t.client 0).resp = some ⟨0, 0⟩ ∧
      (t.client 1).resp = some ⟨3, 1⟩)
    [.start 0 5 3, .mkfifo 0, .openServer 0, .request 0, .serverRead, .serverOpen, .openClient 0,
      .serverOpenDone, .serverWrite, .read 0, .serverClose, .exit 0, .die 0,
      .start 1 5 2, .mkfifo 1, .openServer 1, .request 1, .openClient 1, .serverRead, .serverOpen,
      .openDone 1, .serverWrite, .serverClose, .read 1]
    (.refl : machine.ReachableBy NoReuse initial initial) ⟨_, rfl, by decide, rfl, rfl⟩
  exact ⟨s, hs, h₁, h₂, disjointRanges_of_noReuse hs halloc⟩

/-- Client 0 (PID 5, one number) is killed after sending its request. Client 1 gets the same PID and
asks for 100 numbers; it reads the answer to the first request, and its own request is given up
when it has removed its FIFO. Client 2 then gets the number 1, which client 1 has too. -/
theorem not_disjointRanges_reuse : ∃ s, machine.Reachable initial s ∧ s.allocated < INT_MAX ∧
    ¬ DisjointRanges s ∧ ¬ OwnReplies s := by
  obtain ⟨s, hs, halloc, h₁, h₂, l₁, l₂⟩ := Machine.Reachable.exists_of_run
    (P := fun t : State => t.allocated < INT_MAX ∧ (t.client 1).resp = some ⟨0, 0⟩ ∧
      (t.client 2).resp = some ⟨1, 2⟩ ∧ (t.client 1).seqLen = 100 ∧ (t.client 2).seqLen = 1)
    [.start 0 5 1, .mkfifo 0, .openServer 0, .request 0, .die 0, .serverRead, .serverOpen,
      .start 1 5 100, .mkfifo 1, .openServer 1, .request 1, .openClient 1, .serverOpenDone,
      .serverWrite, .serverClose, .read 1, .exit 1, .die 1, .serverRead, .serverOpen,
      .start 2 6 1, .mkfifo 2, .openServer 2, .request 2, .openClient 2, .serverRead, .serverOpen,
      .serverWrite, .serverClose, .openDone 2, .read 2]
    (.self machine initial) ⟨_, rfl, by decide, rfl, rfl, rfl, rfl⟩
  have r₁ : (s.client 1).range = some { x | 0 ≤ x ∧ x < 0 + 100 } := by
    rw [Client.range, h₁, l₁]; rfl
  have r₂ : (s.client 2).range = some { x | 1 ≤ x ∧ x < 1 + 1 } := by
    rw [Client.range, h₂, l₂]; rfl
  refine ⟨s, hs, halloc, fun hdisj => ?_, fun hown => absurd (hown 1 _ h₁) (by decide)⟩
  have hnot := Set.disjoint_left.mp (hdisj 1 2 _ _ (by decide) r₁ r₂)
  exact hnot (a := 1) ⟨by decide, by decide⟩ ⟨by decide, by decide⟩

end Tlpi.FifoSeqnum
