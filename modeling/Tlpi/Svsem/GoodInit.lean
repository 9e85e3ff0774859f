import Mathlib.Data.Fin.VecNotation
import Mathlib.Data.PNat.Basic
import Tlpi.Lib.Machine
import Tlpi.Lib.Tally

/-!
# Race-free initialization of a semaphore (`svsem/svsem_good_init.c`)

Any number of processes run the program on one key. Each step is one system call of one process;
its label says whether the call fails and what the clock shows. The set is created with whatever
value the kernel leaves in a new semaphore, `SETVAL` does not touch `sem_otime`, and a `semop`
that succeeds sets it. The calls that create, initialize and operate on the semaphore are
recorded in the order in which they take effect.
-/

namespace Tlpi.SvsemGoodInit

open Function

/-- The semaphore of the set, with the time of the last `semop` (0 while there was none). -/
structure Sem where
  val : Nat
  otime : Nat
  deriving DecidableEq

/-- The largest value of a semaphore. -/
def SEMVMX : Nat := 32767

/-- `semop(2)` with one operation: `none` while the caller sleeps, `some none` when the call fails
with `ERANGE`. -/
def Sem.semop (sem : Sem) (semOp : Int) (now : ℕ+) : Option (Option Sem) :=
  if semOp = 0 then
    if sem.val = 0 then some (some { sem with otime := now }) else none
  else if (sem.val : Int) + semOp < 0 then none
  else if (SEMVMX : Int) < sem.val + semOp then some none
  else some (some ⟨(sem.val + semOp).toNat, now⟩)

/-- The system call at which a process is. -/
inductive Pc
  /-- `semget(key, 1, IPC_CREAT | IPC_EXCL | perms)` -/
  | create
  /-- The creator's `semctl(semid, 0, SETVAL, arg)`. -/
  | setval
  /-- The creator's "no-op" `semop`. -/
  | dummy
  /-- `semget(key, 1, perms)` of a process that did not create the set. -/
  | get
  /-- `semctl(semid, 0, IPC_STAT, arg)`, try `j`. -/
  | stat (j : Nat)
  /-- The `semop` with the operation given on the command line. -/
  | own
  /-- `exit(EXIT_SUCCESS)` -/
  | done
  /-- Terminated by `errExit`, `fatal` or `getInt`. -/
  | failed (msg : String)
  deriving DecidableEq

/-- The calls that create, initialize and operate on the semaphore. -/
inductive Call
  | create
  | setval
  | dummy
  | own (semOp : Int)
  deriving DecidableEq

variable {N : Nat}

structure State (N : Nat) where
  sem : Option Sem
  pc : Fin N → Pc
  /-- The calls that took effect, oldest first. -/
  calls : List (Fin N × Call)

/-- Process `proc` makes its next system call, which fails if `err` is set. -/
structure Label (N : Nat) where
  proc : Fin N
  err : Bool
  now : ℕ+

def MAX_TRIES : Nat := 10

namespace State

def goto (s : State N) (p : Fin N) (pc : Pc) : State N := { s with pc := update s.pc p pc }

def fail (s : State N) (p : Fin N) (msg : String) : State N := s.goto p (.failed msg)

/-- The call `c` of `p` leaves the semaphore as `sem`, and `p` goes on at `pc`. -/
def did (s : State N) (p : Fin N) (c : Call) (sem : Sem) (pc : Pc) : State N :=
  { sem := some sem, pc := update s.pc p pc, calls := s.calls ++ [(p, c)] }

/-- One `semop` of `p`. -/
def doSemop (s : State N) (p : Fin N) (c : Call) (semOp : Int) (now : ℕ+) (pc : Pc) :
    Option (State N) :=
  match s.sem with
  | none => some (s.fail p "semop")
  | some sem =>
    match sem.semop semOp now with
    | none => none
    | some none => some (s.fail p "semop")
    | some (some sem') => some (s.did p c sem' pc)

end State

/-- `sops[0].sem_op = getInt(argv[1], 0, "sem-op")`: the field is a `short`. -/
def semOp (arg : Int32) : Int := arg.toInt16.toInt

/-- What `getInt` makes of each process's argument; `none` where it rejects the argument. -/
abbrev Args (N : Nat) := Fin N → Option Int32

/-- One system call of one process; a new semaphore has the value `v₀`. -/
def step (args : Args N) (v₀ : Nat) (s : State N) (a : Label N) : Option (State N) :=
  match s.pc a.proc with
  | .create =>
    if a.err then some (s.fail a.proc "semget 1")
    else match s.sem with
      | none => some (s.did a.proc .create ⟨v₀, 0⟩ .setval)
      | some _ => some (s.goto a.proc .get)
  | .setval =>
    if a.err then some (s.fail a.proc "semctl 1")
    else match s.sem with
      | none => some (s.fail a.proc "semctl 1")
      | some sem => some (s.did a.proc .setval { sem with val := 0 } .dummy)
  | .dummy =>
    if a.err then some (s.fail a.proc "semop")
    else s.doSemop a.proc .dummy 0 a.now .own
  | .get =>
    if a.err then some (s.fail a.proc "semget 2")
    else match s.sem with
      | none => some (s.fail a.proc "semget 2")
      | some _ => some (s.goto a.proc (.stat 0))
  | .stat j =>
    if a.err then some (s.fail a.proc "semctl 2")
    else match s.sem with
      | none => some (s.fail a.proc "semctl 2")
      | some sem =>
        if sem.otime ≠ 0 then some (s.goto a.proc .own)
        else if j + 1 < MAX_TRIES then some (s.goto a.proc (.stat (j + 1)))
        else some (s.fail a.proc "Existing semaphore not initialized")
  | .own =>
    match args a.proc with
    | none => some (s.fail a.proc "getInt error (in sem-op)")
    | some arg =>
      if a.err then some (s.fail a.proc "semop")
      else s.doSemop a.proc (.own (semOp arg)) (semOp arg) a.now .done
  | .done | .failed _ => none

def machine (args : Args N) (v₀ : Nat) : Machine (State N) (Label N) := ⟨step args v₀⟩

/-- No process has started and the set does not exist. -/
def State.init : State N := ⟨none, fun _ => .create, []⟩

/-! ## What a step can do -/

/-- The states of a process that has not yet learnt that the semaphore is initialized. -/
def Pc.early : Pc → Bool
  | .create | .get | .stat _ | .failed _ => true
  | .setval | .dummy | .own | .done => false

/-- The effects of a step of `p`. -/
inductive Moves (args : Args N) (v₀ : Nat) (s : State N) (p : Fin N) : State N → Prop
  | fail (msg) : s.pc p ≠ .done → Moves args v₀ s p (s.fail p msg)
  | wait {pc} : (s.pc p).early → pc.early → Moves args v₀ s p (s.goto p pc)
  | seen {sem} : (s.pc p).early → s.sem = some sem → sem.otime ≠ 0 →
      Moves args v₀ s p (s.goto p .own)
  | create : s.pc p = .create → s.sem = none →
      Moves args v₀ s p (s.did p .create ⟨v₀, 0⟩ .setval)
  | setval {sem} : s.pc p = .setval → s.sem = some sem →
      Moves args v₀ s p (s.did p .setval { sem with val := 0 } .dummy)
  | dummy {sem sem' now} : s.pc p = .dummy → s.sem = some sem →
      sem.semop 0 now = some (some sem') → Moves args v₀ s p (s.did p .dummy sem' .own)
  | own {arg sem sem' now} : s.pc p = .own → args p = some arg → s.sem = some sem →
      sem.semop (semOp arg) now = some (some sem') →
      Moves args v₀ s p (s.did p (.own (semOp arg)) sem' .done)

theorem State.doSemop_cases {s t : State N} {p : Fin N} {c : Call} {op : Int} {now : ℕ+} {pc : Pc}
    (h : s.doSemop p c op now pc = some t) : t = s.fail p "semop" ∨
      ∃ sem sem', s.sem = some sem ∧ sem.semop op now = some (some sem') ∧ t = s.did p c sem' pc := by
  unfold State.doSemop at h
  cases hs : s.sem with
  | none =>
    simp only [hs, Option.some.injEq] at h
    exact .inl h.symm
  | some sem =>
    simp only [hs] at h
    cases ho : sem.semop op now with
    | none => simp [ho] at h
    | some r =>
      cases r with
      | none =>
        simp only [ho, Option.some.injEq] at h
        exact .inl h.symm
      | some sem' =>
        simp only [ho, Option.some.injEq] at h
        exact .inr ⟨sem, sem', rfl, ho, h.symm⟩

theorem step_moves {args : Args N} {v₀ : Nat} {s t : State N} {a : Label N}
    (h : step args v₀ s a = some t) : Moves args v₀ s a.proc t := by
  have hdone : s.pc a.proc ≠ .done := fun hpc => by simp [step, hpc] at h
  unfold step at h
  have hearly {pc : Pc} (hpc : s.pc a.proc = pc) (he : pc.early) : (s.pc a.proc).early := by
    rw [hpc, he]
  cases hpc : s.pc a.proc with
  | create =>
    simp only [hpc] at h
    cases hs : s.sem with
    | none =>
      simp only [hs] at h
      split at h <;> cases h
      · exact .fail _ hdone
      · exact .create hpc hs
    | some sem =>
      simp only [hs] at h
      split at h <;> cases h
      · exact .fail _ hdone
      · exact .wait (hearly hpc rfl) rfl
  | setval =>
    simp only [hpc] at h
    cases hs : s.sem with
    | none =>
      simp only [hs, ite_self, Option.some.injEq] at h
      exact h ▸ .fail _ hdone
    | some sem =>
      simp only [hs] at h
      split at h <;> cases h
      · exact .fail _ hdone
      · exact .setval hpc hs
  | dummy =>
    simp only [hpc] at h
    split at h
    · cases h
      exact .fail _ hdone
    · obtain rfl | ⟨sem, sem', hs, ho, rfl⟩ := State.doSemop_cases h
      · exact .fail _ hdone
      · exact .dummy hpc hs ho
  | get =>
    simp only [hpc] at h
    cases hs : s.sem with
    | none =>
      simp only [hs, ite_self, Option.some.injEq] at h
      exact h ▸ .fail _ hdone
    | some sem =>
      simp only [hs] at h
      split at h <;> cases h
      · exact .fail _ hdone
      · exact .wait (hearly hpc rfl) rfl
  | stat j =>
    simp only [hpc] at h
    cases hs : s.sem with
    | none =>
      simp only [hs, ite_self, Option.some.injEq] at h
      exact h ▸ .fail _ hdone
    | some sem =>
      simp only [hs] at h
      split at h
      · cases h
        exact .fail _ hdone
      · split at h
        · cases h
          exact .seen (hearly hpc rfl) hs ‹_›
        · split at h <;> cases h
          · exact .wait (hearly hpc rfl) rfl
          · exact .fail _ hdone
  | own =>
    simp only [hpc] at h
    cases harg : args a.proc with
    | none =>
      simp only [harg, Option.some.injEq] at h
      exact h ▸ .fail _ hdone
    | some arg =>
      simp only [harg] at h
      split at h
      · cases h
        exact .fail _ hdone
      · obtain rfl | ⟨sem, sem', hs, ho, rfl⟩ := State.doSemop_cases h
        · exact .fail _ hdone
        · exact .own hpc harg hs ho
  | done => simp [hpc] at h
  | failed msg => simp [hpc] at h

/-! ## The phases of the protocol -/

/-- What a process adds to the semaphore: its operation, once that has completed. -/
def contrib (args : Args N) (p : Fin N) (pc : Pc) : Int :=
  if pc = .done then (args p).elim 0 semOp else 0

/-- Only the creator `c`, at `pc`, is past the wait for the initialization. -/
def State.Waits (s : State N) (c : Fin N) (pc : Pc) : Prop :=
  ∀ p, (s.pc p).early ∨ p = c ∧ s.pc p = pc

/-- How far the initialization has come. -/
inductive Phase (args : Args N) (s : State N) : Prop
  | absent : s.sem = none → s.calls = [] → (∀ p, (s.pc p).early) → Phase args s
  | created {c sem} : s.sem = some sem → sem.otime = 0 → s.calls = [(c, .create)] →
      s.Waits c .setval → Phase args s
  | cleared {c} : s.sem = some ⟨0, 0⟩ → s.calls = [(c, .create), (c, .setval)] →
      s.Waits c .dummy → Phase args s
  | ready {c sem ops} : s.sem = some sem →
      s.calls = [(c, .create), (c, .setval), (c, .dummy)] ++ ops →
      (∀ x ∈ ops, ∃ op, x.2 = .own op) → (∀ p, s.pc p ≠ .setval ∧ s.pc p ≠ .dummy) →
      sem.val = tally (contrib args) s.pc → Phase args s

theorem Sem.val_semop {sem sem' : Sem} {op : Int} {now : ℕ+}
    (h : sem.semop op now = some (some sem')) : (sem'.val : Int) = sem.val + op := by
  unfold Sem.semop at h
  split at h
  · split at h <;> cases h
    simp_all
  · split at h
    · cases h
    · split at h <;> cases h
      exact Int.toNat_of_nonneg (by omega)

theorem contrib_eq_zero {args : Args N} {p : Fin N} {pc : Pc} (h : pc ≠ .done) :
    contrib args p pc = 0 := if_neg h

theorem Pc.ne_done_of_early {pc : Pc} (h : pc.early) : pc ≠ .done := by
  rintro rfl
  cases h

section Phases

variable {args : Args N} {v₀ : Nat} {s t : State N} {p c : Fin N} {pc pc' : Pc}

theorem State.Waits.goto (h : s.Waits c pc) (he : pc'.early) : (s.goto p pc').Waits c pc := by
  intro q
  rcases eq_or_ne q p with rfl | hq
  · exact .inl (by simpa [State.goto] using he)
  · simpa [State.goto, hq] using h q

/-- A process that is past the wait, or that has anything but its wait to do, is the creator. -/
theorem State.Waits.eq_creator (h : s.Waits c pc) (hp : (s.pc p).early = false) :
    p = c ∧ s.pc p = pc := by
  rcases h p with he | he
  · simp [he] at hp
  · exact he

/-- The step of the creator `c` of whom all others wait. -/
theorem State.Waits.did (h : s.Waits c pc) {x : Call} {sem : Sem} :
    (s.did c x sem pc').Waits c pc' := by
  intro q
  rcases eq_or_ne q c with rfl | hq
  · exact .inr ⟨rfl, by simp [State.did]⟩
  · rcases h q with he | he
    · exact .inl (by simpa [State.did, hq] using he)
    · exact absurd he.1 hq

/-- Nobody has completed an operation while the processes wait. -/
theorem State.Waits.tally_eq_zero (h : s.Waits c pc) (hpc : pc ≠ .done) :
    tally (contrib args) s.pc = 0 := by
  refine Tlpi.tally_eq_zero fun q => contrib_eq_zero ?_
  rcases h q with he | ⟨-, he⟩
  · exact Pc.ne_done_of_early he
  · rwa [he]

/-- A step to `pc'` that is neither an initialization nor a completed operation. -/
theorem Phase.goto (h : Phase args s) (hp : s.pc p ≠ .done)
    (hpc : pc'.early ∨ pc' = .own ∧ ∃ sem, s.sem = some sem ∧ sem.otime ≠ 0) :
    Phase args (s.goto p pc') := by
  cases h with
  | absent hs hc he =>
    rcases hpc with hpc | ⟨-, sem, hsem, -⟩
    · refine .absent hs hc fun q => ?_
      rcases eq_or_ne q p with rfl | hq
      · simpa [State.goto] using hpc
      · simpa [State.goto, hq] using he q
    · simp [hs] at hsem
  | created hs ho hc hw =>
    rcases hpc with hpc | ⟨-, sem, hsem, hne⟩
    · exact .created hs ho hc (hw.goto hpc)
    · obtain rfl := Option.some.inj (hs.symm.trans hsem)
      exact absurd ho hne
  | cleared hs hc hw =>
    rcases hpc with hpc | ⟨-, sem, hsem, hne⟩
    · exact .cleared hs hc (hw.goto hpc)
    · obtain rfl := Option.some.inj (hs.symm.trans hsem)
      exact absurd rfl hne
  | ready hs hc hops hne hv =>
    have hpc' : pc' ≠ .setval ∧ pc' ≠ .dummy ∧ pc' ≠ .done := by
      rcases hpc with hpc | ⟨rfl, -⟩
      · refine ⟨?_, ?_, ?_⟩ <;> rintro rfl <;> cases hpc
      · exact ⟨nofun, nofun, nofun⟩
    refine .ready hs hc hops (fun q => ?_) ?_
    · rcases eq_or_ne q p with rfl | hq
      · simpa [State.goto] using ⟨hpc'.1, hpc'.2.1⟩
      · simpa [State.goto, hq] using hne q
    · rw [hv, State.goto, tally_update_of_eq]
      rw [contrib_eq_zero hp, contrib_eq_zero hpc'.2.2]

theorem Phase.moves (h : Phase args s) (hm : Moves args v₀ s p t) : Phase args t := by
  cases hm with
  | fail msg hp => exact h.goto hp (.inl rfl)
  | wait hp hpc => exact h.goto (Pc.ne_done_of_early hp) (.inl hpc)
  | seen hp hs ho => exact h.goto (Pc.ne_done_of_early hp) (.inr ⟨rfl, _, hs, ho⟩)
  | create hp hs =>
    cases h with
    | absent _ hc he =>
      have hw : s.Waits p .create := fun q => .inl (he q)
      exact .created rfl rfl (by simp [State.did, hc]) hw.did
    | created hs' | cleared hs' | ready hs' => simp [hs] at hs'
  | setval hp hs =>
    cases h with
    | absent hs' => simp [hs] at hs'
    | created hs' ho hc hw =>
      obtain rfl := Option.some.inj (hs.symm.trans hs')
      obtain ⟨rfl, -⟩ := hw.eq_creator (p := p) (by simp [hp, Pc.early])
      exact .cleared (by simp [State.did, ho]) (by simp [State.did, hc]) hw.did
    | cleared hs' hc hw =>
      obtain ⟨-, hp'⟩ := hw.eq_creator (p := p) (by simp [hp, Pc.early])
      simp [hp] at hp'
    | ready _ _ _ hne => exact absurd hp (hne p).1
  | dummy hp hs ho =>
    cases h with
    | absent hs' => simp [hs] at hs'
    | created hs' _ hc hw =>
      obtain ⟨-, hp'⟩ := hw.eq_creator (p := p) (by simp [hp, Pc.early])
      simp [hp] at hp'
    | cleared hs' hc hw =>
      obtain rfl := Option.some.inj (hs.symm.trans hs')
      obtain ⟨rfl, -⟩ := hw.eq_creator (p := p) (by simp [hp, Pc.early])
      have hw' : (s.did p .dummy ⟨0, 0⟩ .own).Waits p .own := hw.did
      have hc' : s.calls ++ [(p, .dummy)] = [(p, .create), (p, .setval), (p, .dummy)] ++ [] := by
        simp [hc]
      refine .ready rfl hc' nofun (fun q => ?_) ?_
      · rcases hw' q with he | ⟨-, he⟩
        · refine ⟨?_, ?_⟩ <;> intro hq <;> simp [State.did] at he hq <;> simp [hq, Pc.early] at he
        · refine ⟨?_, ?_⟩ <;> intro hq <;> simp [State.did] at he hq <;> simp [hq] at he
      · have hv := Sem.val_semop ho
        have h0 : tally (contrib args) (s.did p .dummy ⟨0, 0⟩ .own).pc = 0 :=
          hw'.tally_eq_zero nofun
        exact (hv.trans (by simp)).trans h0.symm
    | ready _ _ _ hne => exact absurd hp (hne p).2
  | @own arg sem sem' now hp harg hs ho =>
    cases h with
    | absent hs' => simp [hs] at hs'
    | created _ _ _ hw | cleared _ _ hw =>
      obtain ⟨-, hp'⟩ := hw.eq_creator (p := p) (by simp [hp, Pc.early])
      simp [hp] at hp'
    | @ready c _ ops hs' hc hops hne hv =>
      obtain rfl := Option.some.inj (hs.symm.trans hs')
      have hc' : s.calls ++ [(p, .own (semOp arg))] =
          [(c, .create), (c, .setval), (c, .dummy)] ++ (ops ++ [(p, .own (semOp arg))]) := by
        simp [hc]
      refine .ready rfl hc' (fun x hx => ?_) (fun q => ?_) ?_
      · rcases List.mem_append.mp hx with hx | hx
        · exact hops x hx
        · exact ⟨semOp arg, by simp [List.mem_singleton.mp hx]⟩
      · rcases eq_or_ne q p with rfl | hq
        · simp [State.did]
        · simpa [State.did, hq] using hne q
      · have ht := tally_update (contrib args) s.pc p .done
        rw [hp, contrib_eq_zero (by nofun), add_zero] at ht
        rw [Sem.val_semop ho, hv, State.did, ht]
        simp [contrib, harg]

end Phases

theorem phase_of_reachable {args : Args N} {v₀ : Nat} {s : State N}
    (h : (machine args v₀).Reachable State.init s) : Phase args s :=
  h.invariant (.absent rfl rfl fun _ => rfl) fun _ _ _ hs _ hn => hs.moves (step_moves hn)

/-! ## Race freedom -/

/-- The protocol's promise, where an argument counts for `conv` of it. -/
structure RaceFree (args : Args N) (v₀ : Nat) (conv : Int32 → Int) (s : State N) : Prop where
  /-- Only the process that created the set performs `SETVAL`. -/
  setval_creator : ∀ p, (p, .setval) ∈ s.calls → ∀ q, (q, .create) ∈ s.calls ↔ q = p
  /-- An operation comes after the creator's `SETVAL` and its following `semop`. -/
  own_after : ∀ pre p op post, s.calls = pre ++ (p, .own op) :: post →
    ∃ c, [(c, .create), (c, .setval), (c, .dummy)].Sublist pre
  /-- The creator's initializing `semop` does not block. -/
  dummy_enabled : ∀ p now, s.pc p = .dummy →
    step args v₀ s ⟨p, false, now⟩ = some (s.did p .dummy ⟨0, now⟩ .own)
  /-- Once initialized, the semaphore holds the sum of the completed operations. -/
  val_eq : ∀ p, (p, .setval) ∈ s.calls → ∃ sem, s.sem = some sem ∧
    (sem.val : Int) = ∑ q, if s.pc q = .done then (args q).elim 0 conv else 0

/-- The `own` entries of a list that starts with others are in its tail. -/
theorem own_after_of_append {hd ops pre post : List (Fin N × Call)} {p : Fin N} {op : Int}
    (hhd : ∀ x ∈ hd, ∀ o, x.2 ≠ .own o) (h : hd ++ ops = pre ++ (p, .own op) :: post) :
    hd.Sublist pre := by
  rcases List.append_eq_append_iff.mp h with ⟨as, rfl, -⟩ | ⟨bs, rfl, hb⟩
  · exact List.sublist_append_left _ _
  · cases bs with
    | nil => simp
    | cons b bs =>
      obtain ⟨rfl, -⟩ := List.cons_eq_cons.mp hb
      exact absurd rfl (hhd (p, .own op) (by simp) op)

theorem raceFree_of_reachable {args : Args N} {v₀ : Nat} {s : State N}
    (h : (machine args v₀).Reachable State.init s) : RaceFree args v₀ semOp s := by
  have hown {pre p op post} (h' : s.calls = pre ++ (p, .own op) :: post) :
      (p, .own op) ∈ s.calls := by simp [h']
  cases phase_of_reachable h with
  | absent hs hc he =>
    refine ⟨by simp [hc], fun pre p op post h' => ?_, fun p now hp => ?_, by simp [hc]⟩
    · simpa [hc] using hown h'
    · simpa [hp, Pc.early] using he p
  | created hs ho hc hw =>
    refine ⟨by simp [hc], fun pre p op post h' => ?_, fun p now hp => ?_, by simp [hc]⟩
    · simpa [hc] using hown h'
    · obtain ⟨-, hp'⟩ := hw.eq_creator (p := p) (by simp [hp, Pc.early])
      simp [hp] at hp'
  | cleared hs hc hw =>
    refine ⟨by simp [hc], fun pre p op post h' => ?_, fun p now hp => ?_, fun p _ => ⟨_, hs, ?_⟩⟩
    · simpa [hc] using hown h'
    · simp [step, hp, State.doSemop, hs, Sem.semop]
    · exact (hw.tally_eq_zero (by nofun)).symm
  | @ready c sem ops hs hc hops hne hv =>
    have hmem {q : Fin N} {x : Call} (hx : ∀ op, x ≠ .own op) : (q, x) ∉ ops := fun hq => by
      obtain ⟨op, ho⟩ := hops _ hq
      exact hx op ho
    refine ⟨fun p hp q => ?_, fun pre p op post h' => ?_, fun p now hp => absurd hp (hne p).2,
      fun p _ => ⟨_, hs, hv⟩⟩
    · have hp' : p = c := by simpa [hc, hmem] using hp
      simp [hc, hmem, hp']
    · exact ⟨c, own_after_of_append (by simp) (hc.symm.trans h')⟩

/-- A late process polls before and after the initialization, then both operations complete. -/
theorem raceFree_two : ∃ s, (machine (N := 2) ![some 3, some (-2)] 7).Reachable State.init s ∧
    (∀ p, s.pc p = .done) ∧ RaceFree ![some 3, some (-2)] 7 semOp s := by
  have hr : ∃ s, (machine (N := 2) ![some 3, some (-2)] 7).Reachable State.init s ∧
      ∀ p, s.pc p = .done :=
    Machine.Reachable.exists_of_run
      [⟨0, false, 1⟩, ⟨1, false, 1⟩, ⟨1, false, 1⟩, ⟨1, false, 2⟩, ⟨0, false, 2⟩, ⟨0, false, 2⟩,
        ⟨1, false, 3⟩, ⟨0, false, 3⟩, ⟨1, false, 3⟩] .refl ⟨_, rfl, by decide⟩
  obtain ⟨s, hs, hd⟩ := hr
  exact ⟨s, hs, hd, raceFree_of_reachable hs⟩

/-- With the argument 65537 the semaphore ends at 1. -/
theorem not_raceFree_toInt : ∃ s, (machine (N := 1) (fun _ => some 65537) 0).Reachable State.init s ∧
    ¬RaceFree (fun _ => some 65537) 0 Int32.toInt s := by
  refine Machine.Reachable.exists_of_run
    [⟨0, false, 1⟩, ⟨0, false, 1⟩, ⟨0, false, 1⟩, ⟨0, false, 1⟩] .refl ⟨_, rfl, fun h => ?_⟩
  obtain ⟨sem, hs, hv⟩ := h.val_eq 0 (by decide)
  cases hs
  revert hv
  decide

end Tlpi.SvsemGoodInit
