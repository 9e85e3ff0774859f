import Tlpi.Lib.FdTable

/-!
# Internet domain sockets (`sockets/inet_sockets.c`)

`inetConnect` and `inetPassiveSocket` go through the addresses that `getaddrinfo()` returns until one
of them can be used. The files of the descriptor table are the sockets made here, by their address,
and any others.
-/

namespace Tlpi.InetSockets

def ENOSYS : Nat := 38

/-- An address of the list, and how the calls end that are made for it. -/
structure AddrInfo where
  addr : List UInt8
  addrlen : Nat
  socket : Bool
  setsockopt : Bool
  bind : Bool
  connect : Bool
  listen : Bool
  deriving DecidableEq, Repr

inductive File where
  | socket (rp : AddrInfo)
  | other (n : Nat)
  deriving DecidableEq, Repr

/-- The descriptors afterwards, the descriptor that is returned (`none` for -1), the value that is
stored in `*addrlen` and the value that is stored in `errno`, if any. -/
structure Result where
  fds : FdTable File
  sfd : Option Nat
  addrlen : Option Nat
  errno : Option Nat
  deriving DecidableEq, Repr

/-- The loop of `inetConnect`. -/
def connectLoop (t : FdTable File) : List AddrInfo → FdTable File × Option Nat
  | [] => (t, none)
  | rp :: rps =>
    if !rp.socket then connectLoop t rps
    else
      let sfd := t.lowest
      let t := t.alloc (.socket rp)
      if rp.connect then (t, some sfd) else connectLoop (t.close sfd) rps

/-- `result` is the list that `getaddrinfo()` returns, unless it fails. -/
def inetConnect (result : Option (List AddrInfo)) (t : FdTable File) : Result :=
  match result with
  | none => ⟨t, none, none, some ENOSYS⟩
  | some rps =>
    let (t, sfd) := connectLoop t rps
    ⟨t, sfd, none, none⟩

/-- How the loop of `inetPassiveSocket` is left. -/
inductive Left where
  | exhausted
  | setsockoptFailed
  | bound (sfd : Nat) (rp : AddrInfo)
  deriving DecidableEq, Repr

/-- The loop of `inetPassiveSocket`. -/
def passiveLoop (doListen : Bool) (t : FdTable File) : List AddrInfo → FdTable File × Left
  | [] => (t, .exhausted)
  | rp :: rps =>
    if !rp.socket then passiveLoop doListen t rps
    else
      let sfd := t.lowest
      let t := t.alloc (.socket rp)
      if doListen && !rp.setsockopt then (t.close sfd, .setsockoptFailed)
      else if rp.bind then (t, .bound sfd rp)
      else passiveLoop doListen (t.close sfd) rps

/-- `wantsLen` says that `addrlen` is not `NULL`. -/
def inetPassiveSocket (result : Option (List AddrInfo)) (wantsLen doListen : Bool)
    (t : FdTable File) : Result :=
  match result with
  | none => ⟨t, none, none, none⟩
  | some rps =>
    match passiveLoop doListen t rps with
    | (t, .exhausted) | (t, .setsockoptFailed) => ⟨t, none, none, none⟩
    | (t, .bound sfd rp) =>
      -- a socket that cannot listen is left open
      if doListen && !rp.listen then ⟨t, none, none, none⟩
      else ⟨t, some sfd, if wantsLen then some rp.addrlen else none, none⟩

def inetListen (result : Option (List AddrInfo)) (wantsLen : Bool) (t : FdTable File) : Result :=
  inetPassiveSocket result wantsLen true t

def inetBind (result : Option (List AddrInfo)) (wantsLen : Bool) (t : FdTable File) : Result :=
  inetPassiveSocket result wantsLen false t

/-! ### Open sockets -/

/-- No socket is left open on a failure, and on success exactly one is: that of the first address
that can be used. -/
structure Clean (usable : AddrInfo → Bool) (rps : List AddrInfo) (t t' : FdTable File)
    (sfd : Option Nat) : Prop where
  failure : sfd = none → t.Same t'
  success : ∀ fd, sfd = some fd → ∃ rp, rps.find? usable = some rp ∧ t.Gains t' fd (.socket rp)

namespace Clean

variable {usable : AddrInfo → Bool} {rps : List AddrInfo} {rp : AddrInfo} {t t' u : FdTable File}
  {sfd : Option Nat}

theorem of_same (h : t.Same t') : Clean usable rps t t' none := ⟨fun _ => h, nofun⟩

theorem head (h : usable rp) :
    Clean usable (rp :: rps) t (t.alloc (.socket rp)) (some t.lowest) := by
  refine ⟨nofun, fun fd hfd => ⟨rp, List.find?_cons_of_pos h, ?_⟩⟩
  cases hfd
  exact t.gains_alloc _

/-- The search goes on behind an address that cannot be used. -/
theorem tail (h : usable rp = false) (htu : t.Same u) (hc : Clean usable rps u t' sfd) :
    Clean usable (rp :: rps) t t' sfd := by
  refine ⟨fun hnone => htu.trans (hc.failure hnone), fun fd hfd => ?_⟩
  obtain ⟨rp', hfind, hnew⟩ := hc.success fd hfd
  exact ⟨rp', by rw [List.find?_cons_of_neg (by simp [h]), hfind], htu.gains hnew⟩

end Clean

theorem connectLoop_clean (t : FdTable File) (rps : List AddrInfo) :
    Clean (fun rp => rp.socket && rp.connect) rps t (connectLoop t rps).1 (connectLoop t rps).2 := by
  induction rps generalizing t with
  | nil => exact .of_same .rfl
  | cons rp rps ih =>
    rw [connectLoop]
    split
    · next hs => exact .tail (by simp_all) .rfl (ih t)
    · next hs =>
      simp only
      split
      · next hc => exact .head (by simp_all)
      · next hc => exact .tail (by simp_all) (t.gains_alloc _).close (ih _)

theorem inetConnect_clean (result : Option (List AddrInfo)) (t : FdTable File) :
    Clean (fun rp => rp.socket && rp.connect) (result.getD []) t (inetConnect result t).fds
      (inetConnect result t).sfd := by
  cases result with
  | none => exact .of_same .rfl
  | some rps => exact connectLoop_clean t rps

/-- The loop of `inetPassiveSocket` returns the socket that it leaves open. -/
def Left.sfd : Left → Option Nat
  | .bound sfd _ => some sfd
  | _ => none

theorem passiveLoop_clean (doListen : Bool) (t : FdTable File) (rps : List AddrInfo) :
    Clean (fun rp => rp.socket && rp.bind) rps t (passiveLoop doListen t rps).1
      (passiveLoop doListen t rps).2.sfd := by
  induction rps generalizing t with
  | nil => exact .of_same .rfl
  | cons rp rps ih =>
    rw [passiveLoop]
    split
    · next hs => exact .tail (by simp_all) .rfl (ih t)
    · next hs =>
      simp only
      split
      · exact .of_same (t.gains_alloc _).close
      split
      · next hb => exact .head (by simp_all)
      · next hb => exact .tail (by simp_all) (t.gains_alloc _).close (ih _)

/-- The address at which the search for an address to listen on ends. -/
def stop (rp : AddrInfo) : Bool := rp.socket && (!rp.setsockopt || rp.bind)

theorem passiveLoop_bound {t : FdTable File} {rps : List AddrInfo} {sfd : Nat} {rp : AddrInfo}
    {t' : FdTable File} : passiveLoop true t rps = (t', .bound sfd rp) →
      rps.find? stop = some rp ∧ rp.setsockopt := by
  induction rps generalizing t with
  | nil => nofun
  | cons rp' rps ih =>
    rw [passiveLoop]
    split
    · next hs =>
      rw [List.find?_cons_of_neg (by simp_all [stop])]
      exact ih
    · next hs =>
      simp only [Bool.true_and]
      split
      · nofun
      · next ho =>
        split
        · next hb =>
          rintro ⟨⟩
          exact ⟨List.find?_cons_of_pos (by simp_all [stop]), by simpa using ho⟩
        · next hb =>
          rw [List.find?_cons_of_neg (by simp_all [stop])]
          exact ih

theorem passiveLoop_of_stop {t : FdTable File} {rps : List AddrInfo} {rp : AddrInfo}
    (h : rps.find? stop = some rp) (ho : rp.setsockopt) :
    ∃ t' sfd, passiveLoop true t rps = (t', .bound sfd rp) := by
  induction rps generalizing t with
  | nil => cases h
  | cons rp' rps ih =>
    rw [passiveLoop]
    cases hstop : stop rp' with
    | true =>
      rw [List.find?_cons_of_pos hstop] at h
      cases h
      simp_all [stop]
    | false =>
      rw [List.find?_cons_of_neg (by simp [hstop])] at h
      split
      · exact ih h
      · next hs =>
        have hstep : rp'.setsockopt ∧ rp'.bind = false := by simp_all [stop]
        simp only [hstep, Bool.not_true, Bool.and_false, Bool.false_eq_true, if_false]
        exact ih h

theorem inetBind_clean (result : Option (List AddrInfo)) (wantsLen : Bool) (t : FdTable File) :
    Clean (fun rp => rp.socket && rp.bind) (result.getD []) t (inetBind result wantsLen t).fds
      (inetBind result wantsLen t).sfd := by
  cases result with
  | none => exact .of_same .rfl
  | some rps =>
    have h := passiveLoop_clean false t rps
    simp only [inetBind, inetPassiveSocket]
    cases hloop : passiveLoop false t rps with
    | mk t' left =>
      rw [hloop] at h
      cases left with
      | exhausted | setsockoptFailed => exact h
      | bound sfd rp => exact h

/-- The socket that is bound, if any, can also be made to listen. -/
def Listens (rps : List AddrInfo) : Prop :=
  ∀ rp, rps.find? stop = some rp → rp.setsockopt → rp.listen

theorem inetListen_clean_iff (result : Option (List AddrInfo)) (wantsLen : Bool)
    (t : FdTable File) :
    Clean (fun rp => rp.socket && rp.bind) (result.getD []) t (inetListen result wantsLen t).fds
      (inetListen result wantsLen t).sfd ↔ Listens (result.getD []) := by
  cases result with
  | none => exact ⟨fun _ _ => nofun, fun _ => .of_same .rfl⟩
  | some rps =>
    have hclean := passiveLoop_clean true t rps
    simp only [inetListen, inetPassiveSocket, Option.getD_some]
    constructor
    · intro h rp hstop ho
      obtain ⟨t', sfd, hloop⟩ := passiveLoop_of_stop (t := t) hstop ho
      rw [hloop] at h hclean
      by_contra hl
      rw [Bool.not_eq_true] at hl
      simp only [hl, Bool.not_false, Bool.and_self, if_true] at h
      -- the bound socket is new, so a table that has it is not the old one
      obtain ⟨rp', -, hfree, hnew⟩ := hclean.success sfd rfl
      have hsame := h.failure rfl sfd
      rw [hnew sfd, if_pos rfl, hfree] at hsame
      cases hsame
    · intro h
      cases hloop : passiveLoop true t rps with
      | mk t' left =>
        rw [hloop] at hclean
        cases left with
        | exhausted | setsockoptFailed => exact hclean
        | bound sfd rp =>
          obtain ⟨hstop, ho⟩ := passiveLoop_bound hloop
          simp only [h rp hstop ho, Bool.not_true, Bool.and_false, Bool.false_eq_true, if_false]
          exact hclean

/-- Connecting and binding leave no socket behind; listening leaves none exactly if the socket that
was bound can be made to listen. -/
theorem inetSockets_clean_iff (result : Option (List AddrInfo)) (wantsLen : Bool)
    (t : FdTable File) :
    Clean (fun rp => rp.socket && rp.connect) (result.getD []) t (inetConnect result t).fds
      (inetConnect result t).sfd ∧
    Clean (fun rp => rp.socket && rp.bind) (result.getD []) t (inetBind result wantsLen t).fds
      (inetBind result wantsLen t).sfd ∧
    (Clean (fun rp => rp.socket && rp.bind) (result.getD []) t (inetListen result wantsLen t).fds
      (inetListen result wantsLen t).sfd ↔ Listens (result.getD [])) :=
  ⟨inetConnect_clean result t, inetBind_clean result wantsLen t,
    inetListen_clean_iff result wantsLen t⟩

/-- An address on which a socket can be bound but not made to listen. -/
def deafAddr : AddrInfo := ⟨[], 16, true, true, true, true, false⟩

/-- With it `inetListen` returns -1 and leaves the descriptor 0 open. -/
theorem inetListen_not_clean :
    let r := inetListen (some [deafAddr]) false ⟨[]⟩
    r.sfd = none ∧ r.fds.get 0 = some (.socket deafAddr) ∧
      ¬Clean (fun rp => rp.socket && rp.bind) [deafAddr] ⟨[]⟩ r.fds r.sfd := by
  refine ⟨by decide, by decide, fun h => ?_⟩
  exact absurd (h.failure (by decide) 0) (by decide)

end Tlpi.InetSockets
