import Tlpi.Lib.CBuf
import Tlpi.Lib.Machine
import Tlpi.Lib.Monitor
import Mathlib.Data.Fintype.EquivFin
import Mathlib.Logic.Function.Basic
import Mathlib.Tactic.Choose

/-!
# Thread-safe `strerror`

The versions of `strerror` differ in where the returned buffer is: one for all threads
(`strerror.c`), one per thread (`strerror_tls.c`), or one that each thread allocates in its first
call and finds again by a key that is created once (`strerror_tsd.c`). Threads are interleaved
between any two bytes that they store.
-/

namespace Tlpi.Strerror

open Function

def MAX_ERROR_LEN : Nat := 256

/-- The string in a returned buffer. -/
def string (m : Mem) : List UInt8 := cstr (m.load 0 MAX_ERROR_LEN)

/-- The messages of the C library, for the errors that it has one for. -/
abbrev Table := Int → Option (List UInt8)

/-- An error with a message, to which `strerror_r` returns a pointer. For any other one it would make
its text in the caller's buffer and return that, and `snprintf` would copy the buffer onto itself,
which C leaves undefined. -/
abbrev Known (table : Table) := { err : Int // (table err).isSome }

def Known.msg {table : Table} (err : Known table) : List UInt8 := (table err.1).get err.2

/-- What `snprintf` in `strerror_fillbuf` leaves of the message for an error. -/
def text {table : Table} (err : Known table) : List UInt8 :=
  (cstr err.msg).take (MAX_ERROR_LEN - 1)

/-- `strerror_fillbuf`, byte by byte; `none` after the terminator. -/
def fillbuf {table : Table} (err : Known table) (k : Nat) (m : Mem) : Option Mem :=
  (text err ++ [0])[k]?.map fun b => m.store k [b]

/-- The first `k` bytes are stored. -/
def Filled {table : Table} (err : Known table) (k : Nat) (m : Mem) : Prop :=
  m.load 0 k = (text err ++ [0]).take k

section

variable {table : Table} {err : Known table} {k : Nat} {m m' : Mem}

theorem filled_zero : Filled err 0 m := rfl

theorem Filled.succ (h : Filled err k m) (hm : fillbuf err k m = some m') :
    Filled err (k + 1) m' := by
  obtain ⟨b, hb, rfl⟩ := Option.map_eq_some_iff.mp hm
  have hbefore : (m.store k [b]).load 0 k = m.load 0 k :=
    Mem.load_store_of_disjoint (.inl (Nat.zero_add k).le)
  have hat : (m.store k [b]).load k 1 = [b] := Mem.load_store m k [b]
  rw [Filled, Mem.load_add, hbefore, h, Nat.zero_add, hat, List.take_add_one, hb]
  rfl

theorem zero_notMem_text : 0 ∉ text err :=
  fun h => zero_notMem_cstr _ (List.mem_of_mem_take h)

theorem text_length_lt : (text err).length < MAX_ERROR_LEN := by
  rw [text, List.length_take, MAX_ERROR_LEN]
  omega

theorem Filled.string (h : Filled err ((text err).length + 1) m) :
    string m = text err := by
  have hload : m.load 0 ((text err).length + 1) = text err ++ [0] := by
    rw [h, List.take_of_length_le (by simp)]
  rw [Strerror.string, (Mem.cstr_load MAX_ERROR_LEN hload text_length_lt).1,
    cstr_eq_self zero_notMem_text]

theorem fillbuf_eq_none (h : fillbuf err k m = none) : (text err).length + 1 ≤ k := by
  rw [fillbuf, Option.map_eq_none_iff, List.getElem?_eq_none_iff] at h
  simpa using h

theorem lt_of_fillbuf (h : fillbuf err k m = some m') : k < (text err).length + 1 := by
  obtain ⟨b, hb, -⟩ := Option.map_eq_some_iff.mp h
  simpa using (List.getElem?_eq_some_iff.mp hb).1

theorem fillbuf_eq_some (h : k < (text err).length + 1) :
    ∃ m', fillbuf err k m = some m' := by
  refine Option.isSome_iff_exists.mp ?_
  simpa [fillbuf] using h

end

/-! ### Static buffers -/

namespace Static

inductive Pc (table : Table)
  | idle
  | fill (err : Known table) (k : Nat)
  | returned (err : Known table)
  deriving DecidableEq

structure State (table : Table) (β ι : Type*) where
  mem : β → Mem
  thread : ι → Pc table

variable {β ι : Type*} [DecidableEq β] [DecidableEq ι]

/-- All buffers are zero in the beginning. -/
def State.init {table : Table} : State table β ι := ⟨fun _ _ => 0, fun _ => .idle⟩

/-- A thread that is not in `strerror` calls it for `err`. Thread `i` uses the buffer `buf i`. -/
def step {table : Table} (buf : ι → β) (s : State table β ι) : ι × Known table → Option (State table β ι)
  | (i, err) =>
    match s.thread i with
    | .idle | .returned _ => some { s with thread := update s.thread i (.fill err 0) }
    | .fill e k =>
      match fillbuf e k (s.mem (buf i)) with
      | some m => some ⟨update s.mem (buf i) m, update s.thread i (.fill e (k + 1))⟩
      | none => some { s with thread := update s.thread i (.returned e) }

def machine (table : Table) (buf : ι → β) : Machine (State table β ι) (ι × Known table) :=
  ⟨step buf⟩

/-- Every thread whose call has returned finds the message for its error in its buffer. -/
def ThreadSafe (table : Table) (buf : ι → β) : Prop :=
  ∀ s, (machine table buf).Reachable .init s →
    ∀ i err, s.thread i = .returned err → string (s.mem (buf i)) = text err

def Pc.Ok {table : Table} (m : Mem) : Pc table → Prop
  | .idle => True
  | .fill err k => k ≤ (text err).length + 1 ∧ Filled err k m
  | .returned err => string m = text err

variable {table : Table} {buf : ι → β} {s t : State table β ι}

theorem ok_step (hbuf : Injective buf) (h : ∀ i, (s.thread i).Ok (s.mem (buf i)))
    {a : ι × Known table} (hn : step buf s a = some t) : ∀ i, (t.thread i).Ok (t.mem (buf i)) := by
  obtain ⟨i, err⟩ := a
  have hi := h i
  have hcall : ∀ k, (update s.thread i (.fill err 0) k).Ok (s.mem (buf k)) :=
    forall_update (p := fun k pc => Pc.Ok (s.mem (buf k)) pc) ⟨Nat.zero_le _, filled_zero⟩ h
  simp only [step] at hn
  split at hn
  · cases hn
    exact hcall
  · cases hn
    exact hcall
  · next e k hth =>
    rw [hth] at hi
    split at hn
    · next m hm =>
      cases hn
      intro j
      rcases eq_or_ne j i with rfl | hj
      · simpa using ⟨lt_of_fillbuf hm, hi.2.succ hm⟩
      · simpa [hj, hbuf.ne hj] using h j
    · next hm =>
      cases hn
      refine forall_update (p := fun k pc => Pc.Ok (s.mem (buf k)) pc) ?_ h
      obtain rfl := Nat.le_antisymm hi.1 (fillbuf_eq_none hm)
      exact hi.2.string

/-- A call from start to end, while the other threads do nothing. -/
theorem reachable_call {s₀ : State table β ι} (hs : (machine table buf).Reachable s₀ s) (i : ι) (err : Known table)
    (hi : ∀ e k, s.thread i ≠ .fill e k) : ∃ m, (machine table buf).Reachable s₀
      ⟨update s.mem (buf i) m, update s.thread i (.returned err)⟩ ∧ string m = text err := by
  have hfill : ∀ k ≤ (text err).length + 1, ∃ m, (machine table buf).Reachable s₀
      ⟨update s.mem (buf i) m, update s.thread i (.fill err k)⟩ ∧ Filled err k m := by
    intro k
    induction k with
    | zero =>
      refine fun _ => ⟨s.mem (buf i), .step (a := (i, err)) hs trivial ?_, filled_zero⟩
      rw [update_eq_self]
      change step buf s (i, err) = _
      simp only [step]
      split
      · rfl
      · rfl
      · next e k hth => exact absurd hth (hi e k)
    | succ k ih =>
      intro hk
      obtain ⟨m, hm, hfilled⟩ := ih (by omega)
      obtain ⟨m', hm'⟩ := fillbuf_eq_some (m := m) hk
      refine ⟨m', .step (a := (i, err)) hm trivial ?_, hfilled.succ hm'⟩
      change step buf _ (i, err) = _
      simp [step, hm']
  obtain ⟨m, hm, hfilled⟩ := hfill _ le_rfl
  refine ⟨m, .step (a := (i, err)) hm trivial ?_, hfilled.string⟩
  change step buf _ (i, err) = _
  have hend : fillbuf err ((text err).length + 1) m = none := by
    simp [fillbuf]
  simp [step, hend]

/-- `strerror` is thread-safe if and only if no two threads share a buffer, given two errors whose
messages differ. -/
theorem threadSafe_iff (buf : ι → β) {e e' : Known table} (hmsg : text e ≠ text e') :
    ThreadSafe table buf ↔ Injective buf := by
  constructor
  · intro h i j hij
    by_contra hne
    obtain ⟨m, hm, -⟩ := reachable_call (Machine.Reachable.self (machine table buf) .init) i e
      fun _ _ => by simp [State.init]
    obtain ⟨m', hm', hstring⟩ := reachable_call hm j e' fun _ _ => by
      simp [State.init, Ne.symm hne]
    refine hmsg ((h _ hm' i e (by simp [hne])).symm.trans ?_)
    simp [hij, hstring]
  · intro hbuf s hs i err hi
    have hok : ∀ i, (s.thread i).Ok (s.mem (buf i)) :=
      hs.invariant (P := fun s => ∀ i, (s.thread i).Ok (s.mem (buf i))) (fun _ => trivial)
        fun _ _ _ h _ hn => ok_step hbuf h hn
    have := hok i
    rwa [hi] at this

/-- Messages for the two errors of the test. -/
def testTable (err : Int) : Option (List UInt8) :=
  if err = 1 then some [79] else if err = 22 then some [73] else none

theorem threadSafe_iff_test : ¬ThreadSafe testTable (fun _ : Fin 2 => ()) ∧
    ThreadSafe testTable (id : Fin 2 → Fin 2) := by
  have hmsg : text (⟨1, rfl⟩ : Known testTable) ≠ text (⟨22, rfl⟩ : Known testTable) := by decide
  refine ⟨fun h => ?_, (threadSafe_iff _ hmsg).mpr injective_id⟩
  have heq : (0 : Fin 2) = 1 := (threadSafe_iff _ hmsg).mp h rfl
  exact absurd heq (by decide)

end Static

/-! ### Thread-specific data -/

namespace Tsd

/-- `pthread_once_t`; in `running i`, thread `i` is in `createKey`. -/
inductive Once (ι : Type*)
  | ready
  | running (i : ι)
  | done

inductive Pc (table : Table)
  | idle
  | once (err : Known table)
  | createKey (err : Known table)
  | getspecific (err : Known table)
  | malloc (err : Known table)
  | setspecific (err : Known table) (p : Nat)
  | fill (err : Known table) (p k : Nat)
  | returned (err : Known table) (p : Nat)
  deriving DecidableEq

/-- `specific key i` is what thread `i` has stored under the key; the keys below `keys` are in use.
Buffers are numbered, and those in `allocated` are in use. -/
structure State (table : Table) (ι : Type*) where
  once : Once ι
  strerrorKey : Nat
  keys : Nat
  specific : Nat → ι → Option Nat
  allocated : List Nat
  mem : Nat → Mem
  thread : ι → Pc table

inductive Act (table : Table) (ι : Type*)
  | call (i : ι) (err : Known table)
  | malloc (i : ι) (p : Nat)
  | run (i : ι)

variable {ι : Type*} [DecidableEq ι]

def State.init {table : Table} (mem : Nat → Mem) : State table ι :=
  ⟨.ready, 0, 0, fun _ _ => none, [], mem, fun _ => .idle⟩

def run {table : Table} (s : State table ι) (i : ι) : Option (State table ι) :=
  match s.thread i with
  | .once err =>
    match s.once with
    | .ready => some { s with once := .running i, thread := update s.thread i (.createKey err) }
    | .running _ => none
    | .done => some { s with thread := update s.thread i (.getspecific err) }
  | .createKey err => some { s with
      once := .done
      strerrorKey := s.keys
      keys := s.keys + 1
      specific := update s.specific s.keys fun _ => none
      thread := update s.thread i (.getspecific err) }
  | .getspecific err =>
    match s.specific s.strerrorKey i with
    | none => some { s with thread := update s.thread i (.malloc err) }
    | some p => some { s with thread := update s.thread i (.fill err p 0) }
  | .setspecific err p => some { s with
      specific := update s.specific s.strerrorKey
        (update (s.specific s.strerrorKey) i (some p))
      thread := update s.thread i (.fill err p 0) }
  | .fill err p k =>
    match fillbuf err k (s.mem p) with
    | some m => some { s with
        mem := update s.mem p m
        thread := update s.thread i (.fill err p (k + 1)) }
    | none => some { s with thread := update s.thread i (.returned err p) }
  | .idle | .malloc _ | .returned _ _ => none

/-- `malloc` may return any buffer that is not in use, with any bytes in it. -/
def step {table : Table} (s : State table ι) : Act table ι → Option (State table ι)
  | .call i err =>
    match s.thread i with
    | .idle | .returned _ _ => some { s with thread := update s.thread i (.once err) }
    | _ => none
  | .malloc i p =>
    match s.thread i with
    | .malloc err =>
      if p ∈ s.allocated then none
      else some { s with
        allocated := p :: s.allocated
        thread := update s.thread i (.setspecific err p) }
    | _ => none
  | .run i => run s i

def machine (table : Table) (ι : Type*) [DecidableEq ι] : Machine (State table ι) (Act table ι) :=
  ⟨step⟩

/-- The steps, by what the thread does. -/
inductive Step {table : Table} (s : State table ι) (i : ι) : State table ι → Prop
  | call (err : Known table) (hi : s.thread i = .idle ∨ ∃ e p, s.thread i = .returned e p) :
    Step s i { s with thread := update s.thread i (.once err) }
  | first (err : Known table) (hi : s.thread i = .once err) (ho : s.once = .ready) :
    Step s i { s with once := .running i, thread := update s.thread i (.createKey err) }
  | later (err : Known table) (hi : s.thread i = .once err) (ho : s.once = .done) :
    Step s i { s with thread := update s.thread i (.getspecific err) }
  | createKey (err : Known table) (hi : s.thread i = .createKey err) :
    Step s i { s with
      once := .done
      strerrorKey := s.keys
      keys := s.keys + 1
      specific := update s.specific s.keys fun _ => none
      thread := update s.thread i (.getspecific err) }
  | new (err : Known table) (hi : s.thread i = .getspecific err)
    (hp : s.specific s.strerrorKey i = none) :
    Step s i { s with thread := update s.thread i (.malloc err) }
  | old (err : Known table) (p : Nat) (hi : s.thread i = .getspecific err)
    (hp : s.specific s.strerrorKey i = some p) :
    Step s i { s with thread := update s.thread i (.fill err p 0) }
  | malloc (err : Known table) (p : Nat) (hi : s.thread i = .malloc err) (hp : p ∉ s.allocated) :
    Step s i { s with
      allocated := p :: s.allocated
      thread := update s.thread i (.setspecific err p) }
  | setspecific (err : Known table) (p : Nat) (hi : s.thread i = .setspecific err p) :
    Step s i { s with
      specific := update s.specific s.strerrorKey
        (update (s.specific s.strerrorKey) i (some p))
      thread := update s.thread i (.fill err p 0) }
  | fill (err : Known table) (p k : Nat) (m : Mem) (hi : s.thread i = .fill err p k)
    (hm : fillbuf err k (s.mem p) = some m) :
    Step s i { s with
      mem := update s.mem p m
      thread := update s.thread i (.fill err p (k + 1)) }
  | ret (err : Known table) (p k : Nat) (hi : s.thread i = .fill err p k)
    (hm : fillbuf err k (s.mem p) = none) :
    Step s i { s with thread := update s.thread i (.returned err p) }

variable {table : Table} {s t : State table ι} {i j : ι} {p : Nat}

theorem Step.of_run (hn : run s i = some t) : Step s i t := by
  rw [run] at hn
  split at hn
  · next err hi =>
    split at hn
    · next ho =>
      cases hn
      exact .first err hi ho
    · cases hn
    · next ho =>
      cases hn
      exact .later err hi ho
  · next err hi =>
    cases hn
    exact .createKey err hi
  · next err hi =>
    split at hn
    · next hp =>
      cases hn
      exact .new err hi hp
    · next p hp =>
      cases hn
      exact .old err p hi hp
  · next err p hi =>
    cases hn
    exact .setspecific err p hi
  · next err p k hi =>
    split at hn
    · next m hm =>
      cases hn
      exact .fill err p k m hi hm
    · next hm =>
      cases hn
      exact .ret err p k hi hm
  all_goals cases hn

theorem Step.of_step {a : Act table ι} (hn : step s a = some t) : ∃ i, Step s i t := by
  cases a with
  | call i err =>
    refine ⟨i, ?_⟩
    simp only [step] at hn
    split at hn
    · next hi =>
      cases hn
      exact .call err (.inl hi)
    · next e p hi =>
      cases hn
      exact .call err (.inr ⟨e, p, hi⟩)
    · cases hn
  | malloc i p =>
    refine ⟨i, ?_⟩
    simp only [step] at hn
    split at hn
    · next err hi =>
      split at hn
      · cases hn
      · next hp =>
        cases hn
        exact .malloc err p hi hp
    · cases hn
  | run i => exact ⟨i, .of_run hn⟩

/-- The thread has not come through `pthread_once`. -/
def Pc.Early {table : Table} (pc : Pc table) : Prop := pc = .idle ∨ ∃ err, pc = .once err

/-- The key is created once, before anybody uses it. -/
inductive OncePhase {table : Table} (o : Once ι) (keys : Nat) (thread : ι → Pc table) : Prop
  | ready (ho : o = .ready) (hk : keys = 0) (hall : ∀ i, (thread i).Early)
  | running (i : ι) (err : Known table) (ho : o = .running i) (hk : keys = 0)
    (hi : thread i = .createKey err) (hall : ∀ j, j ≠ i → (thread j).Early)
  | done (ho : o = .done) (hk : keys = 1) (hall : ∀ i err, thread i ≠ .createKey err)

/-- The buffer of a thread, also before it has stored it under the key. -/
def Pc.own {table : Table} (specific : Option Nat) : Pc table → Option Nat
  | .setspecific _ p => some p
  | _ => specific

def State.own (s : State table ι) (i : ι) : Option Nat := (s.thread i).own (s.specific 0 i)

def Pc.Ok {table : Table} (specific : Option Nat) (mem : Nat → Mem) : Pc table → Prop
  | .idle | .once _ | .createKey _ | .getspecific _ => True
  | .malloc _ | .setspecific _ _ => specific = none
  | .fill err p k => specific = some p ∧ k ≤ (text err).length + 1 ∧ Filled err k (mem p)
  | .returned err p => specific = some p ∧ string (mem p) = text err

structure Inv (s : State table ι) : Prop where
  phase : OncePhase s.once s.keys s.thread
  key : s.strerrorKey = 0
  unset : s.keys = 0 → s.specific 0 = fun _ => none
  owned : ∀ p, p ∈ s.allocated ↔ ∃ i, s.own i = some p
  owner : ∀ i j p, s.own i = some p → s.own j = some p → i = j
  nodup : s.allocated.Nodup
  ok : ∀ i, (s.thread i).Ok (s.specific 0 i) s.mem

omit [DecidableEq ι] in
theorem inv_init (mem : Nat → Mem) : Inv (State.init mem : State table ι) where
  phase := .ready rfl rfl fun _ => .inl rfl
  key := rfl
  unset _ := rfl
  owned p := by simp [State.init, State.own, Pc.own]
  owner i j p h := by simp [State.init, State.own, Pc.own] at h
  nodup := List.nodup_nil
  ok _ := trivial

omit [DecidableEq ι] in
theorem Inv.done_of_late (h : Inv s) (hi : ¬(s.thread i).Early)
    (hc : ∀ err, s.thread i ≠ .createKey err) : s.once = .done := by
  cases h.phase with
  | ready _ _ hall => exact absurd (hall i) hi
  | running j err _ _ hj hall =>
    rcases eq_or_ne i j with rfl | hne
    · exact absurd hj (hc err)
    · exact absurd (hall i hne) hi
  | done ho _ _ => exact ho

theorem Inv.phase_late (h : Inv s) (ho : s.once = .done) {pc : Pc table}
    (hpc : ∀ err, pc ≠ .createKey err) : OncePhase s.once s.keys (update s.thread i pc) := by
  cases h.phase with
  | ready ho' _ _ => cases ho.symm.trans ho'
  | running j err ho' _ _ _ => cases ho.symm.trans ho'
  | done ho hk hall =>
    exact .done ho hk (forall_update (p := fun _ pc => ∀ err, pc ≠ Pc.createKey err) hpc hall)

/-- Only the thread moves on, and it keeps its buffer. -/
theorem Inv.move (h : Inv s) {o : Once ι} {n : Nat} {pc : Pc table} (hn : s.keys ≤ n)
    (hphase : OncePhase o n (update s.thread i pc)) (hown : pc.own (s.specific 0 i) = s.own i)
    (hok : pc.Ok (s.specific 0 i) s.mem) :
    Inv { s with once := o, keys := n, thread := update s.thread i pc } := by
  have howns : State.own { s with
      once := o
      keys := n
      thread := update s.thread i pc } = s.own := by
    funext k
    rcases eq_or_ne k i with rfl | hk
    · simpa [State.own] using hown
    · simp [State.own, hk]
  exact ⟨hphase, h.key, fun hn' => h.unset (Nat.le_zero.mp (hn' ▸ hn)), howns ▸ h.owned,
    howns ▸ h.owner, h.nodup,
    forall_update (p := fun k pc => Pc.Ok (s.specific 0 k) s.mem pc) hok h.ok⟩

theorem Inv.call (h : Inv s) (hi : s.thread i = .idle ∨ ∃ e p, s.thread i = .returned e p)
    (err : Known table) : Inv { s with thread := update s.thread i (.once err) } := by
  have hown : Pc.own (s.specific 0 i) (.once err) = s.own i := by
    rcases hi with hi | ⟨e, p, hi⟩ <;> simp [State.own, hi, Pc.own]
  refine h.move le_rfl ?_ hown trivial
  cases h.phase with
  | ready ho hk hall =>
    exact .ready ho hk (forall_update (p := fun _ pc => Pc.Early pc) (.inr ⟨err, rfl⟩) hall)
  | running j e ho hk hj hall =>
    have hne : j ≠ i := by
      rintro rfl
      rcases hi with hi | ⟨e, p, hi⟩ <;> simp [hi] at hj
    refine .running j e ho hk (by simp [hne, hj]) fun k hkj => ?_
    rcases eq_or_ne k i with rfl | hki
    · simp [Pc.Early]
    · simpa [hki] using hall k hkj
  | done ho _ _ => exact h.phase_late ho (by simp)

theorem Inv.first {err : Known table} (h : Inv s) (hi : s.thread i = .once err) (ho : s.once = .ready) :
    Inv { s with once := .running i, thread := update s.thread i (.createKey err) } := by
  refine h.move le_rfl ?_ (by simp [State.own, hi, Pc.own]) trivial
  cases h.phase with
  | ready _ hk hall =>
    refine .running i err rfl hk (by simp) fun k hki => ?_
    simpa [hki] using hall k
  | running j e ho' _ _ _ => cases ho.symm.trans ho'
  | done ho' _ _ => cases ho.symm.trans ho'

theorem Inv.createKey {err : Known table} (h : Inv s) (hi : s.thread i = .createKey err) :
    Inv { s with
      once := .done
      strerrorKey := s.keys
      keys := s.keys + 1
      specific := update s.specific s.keys fun _ => none
      thread := update s.thread i (.getspecific err) } := by
  obtain ⟨hk, hall⟩ : s.keys = 0 ∧ ∀ j, j ≠ i → (s.thread j).Early := by
    cases h.phase with
    | ready _ _ hall => simpa [hi, Pc.Early] using hall i
    | running j e _ hk hj hall =>
      rcases eq_or_ne i j with rfl | hne
      · exact ⟨hk, hall⟩
      · simpa [hi, Pc.Early] using hall i hne
    | done _ _ hall => exact absurd hi (hall i err)
  have hspecific : update s.specific 0 (fun _ => none) = s.specific := by
    rw [← h.unset hk, update_eq_self]
  have heq : ({ s with
      once := .done
      strerrorKey := s.keys
      keys := s.keys + 1
      specific := update s.specific s.keys fun _ => none
      thread := update s.thread i (.getspecific err) } : State table ι) =
      { s with once := .done, keys := 1, thread := update s.thread i (.getspecific err) } := by
    rw [State.mk.injEq]
    exact ⟨rfl, by rw [hk, h.key], by rw [hk], by rw [hk, hspecific], rfl, rfl, rfl⟩
  rw [heq]
  refine h.move (by omega) (.done rfl rfl fun k e => ?_) (by simp [State.own, hi, Pc.own]) trivial
  rcases eq_or_ne k i with rfl | hki
  · simp
  · rcases hall k hki with hk | ⟨e', hk⟩ <;> simp [hki, hk]

/-- A new buffer belongs to nobody. -/
theorem Inv.malloc {err : Known table} (h : Inv s) (ho : s.once = .done) (hi : s.thread i = .malloc err)
    (hp : p ∉ s.allocated) : Inv { s with
      allocated := p :: s.allocated
      thread := update s.thread i (.setspecific err p) } := by
  have hnone : s.specific 0 i = none := by simpa [hi, Pc.Ok] using h.ok i
  have hi' : s.own i = none := by simpa [State.own, hi, Pc.own] using hnone
  have howns : State.own { s with
      allocated := p :: s.allocated
      thread := update s.thread i (.setspecific err p) } = update s.own i (some p) := by
    funext k
    rcases eq_or_ne k i with rfl | hk
    · simp [State.own, Pc.own]
    · simp [State.own, hk]
  have hnew : ∀ k, s.own k ≠ some p := fun k hk => hp ((h.owned p).mpr ⟨k, hk⟩)
  refine ⟨h.phase_late ho (by simp), h.key, h.unset, fun q => ?_, fun j k q hj hk => ?_,
    List.nodup_cons.mpr ⟨hp, h.nodup⟩,
    forall_update (p := fun k pc => Pc.Ok (s.specific 0 k) s.mem pc) hnone h.ok⟩
  · rw [howns, List.mem_cons, h.owned]
    constructor
    · rintro (rfl | ⟨k, hk⟩)
      · exact ⟨i, update_self ..⟩
      · refine ⟨k, ?_⟩
        rw [update_of_ne, hk]
        rintro rfl
        simp [hi'] at hk
    · rintro ⟨k, hk⟩
      rcases eq_or_ne k i with rfl | hki
      · exact .inl (by simpa using hk.symm)
      · exact .inr ⟨k, by simpa [hki] using hk⟩
  · rw [howns] at hj hk
    rcases eq_or_ne j i with rfl | hji <;> rcases eq_or_ne k j with rfl | hkj
    · rfl
    · obtain rfl : p = q := by simpa using hj
      exact absurd (by simpa [hkj] using hk) (hnew k)
    · rfl
    · rcases eq_or_ne k i with rfl | hki
      · obtain rfl : p = q := by simpa using hk
        exact absurd (by simpa [hji] using hj) (hnew j)
      · exact h.owner j k q (by simpa [hji] using hj) (by simpa [hki] using hk)

theorem Inv.setspecific {err : Known table} (h : Inv s) (ho : s.once = .done)
    (hi : s.thread i = .setspecific err p) : Inv { s with
      specific := update s.specific s.strerrorKey (update (s.specific s.strerrorKey) i (some p))
      thread := update s.thread i (.fill err p 0) } := by
  have howns : State.own { s with
      specific := update s.specific s.strerrorKey (update (s.specific s.strerrorKey) i (some p))
      thread := update s.thread i (.fill err p 0) } = s.own := by
    funext k
    rcases eq_or_ne k i with rfl | hk
    · simp [State.own, Pc.own, h.key, hi]
    · simp [State.own, h.key, hk]
  have hkeys : s.keys ≠ 0 := by
    cases h.phase with
    | ready ho' _ _ => cases ho.symm.trans ho'
    | running j err ho' _ _ _ => cases ho.symm.trans ho'
    | done _ hk _ => omega
  refine ⟨h.phase_late ho (by simp), h.key, fun hk => absurd hk hkeys, howns ▸ h.owned,
    howns ▸ h.owner, h.nodup, fun k => ?_⟩
  rcases eq_or_ne k i with rfl | hk
  · simpa [h.key] using ⟨rfl, Nat.zero_le _, filled_zero⟩
  · simpa [h.key, hk] using h.ok k

theorem Inv.fill {err : Known table} {k : Nat} {m : Mem} (h : Inv s) (ho : s.once = .done)
    (hi : s.thread i = .fill err p k) (hm : fillbuf err k (s.mem p) = some m) :
    Inv { s with
      mem := update s.mem p m
      thread := update s.thread i (.fill err p (k + 1)) } := by
  have hok := h.ok i
  rw [hi] at hok
  obtain ⟨hp, -, hfilled⟩ := hok
  have hown : s.own i = some p := by simpa [State.own, hi, Pc.own] using hp
  have howns : State.own { s with
      mem := update s.mem p m
      thread := update s.thread i (.fill err p (k + 1)) } = s.own := by
    funext k
    rcases eq_or_ne k i with rfl | hk
    · simp [State.own, Pc.own, hi]
    · simp [State.own, hk]
  refine ⟨h.phase_late ho (by simp), h.key, h.unset, howns ▸ h.owned, howns ▸ h.owner, h.nodup,
    fun j => ?_⟩
  rcases eq_or_ne j i with rfl | hj
  · simp only [update_self]
    exact ⟨hp, lt_of_fillbuf hm, by simpa using hfilled.succ hm⟩
  · have hokj := h.ok j
    have hne : ∀ q, s.own j = some q → q ≠ p := fun q hq hqp => hj (h.owner j i p (hqp ▸ hq) hown)
    simp only [update_of_ne hj]
    cases hpc : s.thread j with
    | fill e q n =>
      rw [hpc] at hokj
      have hq := hne q (by simpa [State.own, hpc, Pc.own] using hokj.1)
      simpa [Pc.Ok, update_of_ne hq] using hokj
    | returned e q =>
      rw [hpc] at hokj
      have hq := hne q (by simpa [State.own, hpc, Pc.own] using hokj.1)
      simpa [Pc.Ok, update_of_ne hq] using hokj
    | _ =>
      rw [hpc] at hokj
      exact hokj

theorem Inv.step (h : Inv s) (hstep : Step s i t) : Inv t := by
  have hok := h.ok i
  have hlate (hne : ¬(s.thread i).Early) (hc : ∀ err, s.thread i ≠ .createKey err) :=
    h.done_of_late hne hc
  cases hstep with
  | call err hi => exact h.call hi err
  | first err hi ho => exact h.first hi ho
  | createKey err hi => exact h.createKey hi
  | later err hi ho =>
    exact h.move le_rfl (h.phase_late ho (by simp)) (by simp [State.own, hi, Pc.own]) trivial
  | new err hi hp =>
    have ho := hlate (by simp [hi, Pc.Early]) (by simp [hi])
    rw [h.key] at hp
    exact h.move le_rfl (h.phase_late ho (by simp)) (by simp [State.own, hi, Pc.own]) hp
  | old err p hi hp =>
    have ho := hlate (by simp [hi, Pc.Early]) (by simp [hi])
    rw [h.key] at hp
    exact h.move le_rfl (h.phase_late ho (by simp)) (by simp [State.own, hi, Pc.own])
      ⟨hp, Nat.zero_le _, filled_zero⟩
  | malloc err p hi hp => exact h.malloc (hlate (by simp [hi, Pc.Early]) (by simp [hi])) hi hp
  | setspecific err p hi => exact h.setspecific (hlate (by simp [hi, Pc.Early]) (by simp [hi])) hi
  | fill err p k m hi hm => exact h.fill (hlate (by simp [hi, Pc.Early]) (by simp [hi])) hi hm
  | ret err p k hi hm =>
    have ho := hlate (by simp [hi, Pc.Early]) (by simp [hi])
    rw [hi] at hok
    obtain ⟨hp, hk, hfilled⟩ := hok
    obtain rfl := Nat.le_antisymm hk (fillbuf_eq_none hm)
    exact h.move le_rfl (h.phase_late ho (by simp)) (by simp [State.own, hi, Pc.own])
      ⟨hp, hfilled.string⟩

omit [DecidableEq ι] in
/-- No thread has a second buffer. -/
theorem Inv.allocated_le [Fintype ι] (h : Inv s) : s.allocated.length ≤ Fintype.card ι := by
  choose f hf using fun p : { p // p ∈ s.allocated } => (h.owned p.1).mp p.2
  have hinj : Injective f := fun p q hpq => by
    have hq := hf q
    rw [← hpq, hf p] at hq
    exact Subtype.ext (Option.some.inj hq)
  have hcard := Fintype.card_le_of_injective f hinj
  rwa [Fintype.card_of_subtype s.allocated.toFinset fun p => List.mem_toFinset,
    List.toFinset_card_of_nodup h.nodup] at hcard

omit [DecidableEq ι] in
theorem Inv.keys_le (h : Inv s) : s.keys ≤ 1 := by
  cases h.phase with
  | ready _ hk _ => omega
  | running _ _ _ hk _ _ => omega
  | done _ hk _ => omega

/-- The thread is in a call of `strerror`. -/
def Pc.inCall {table : Table} : Pc table → Prop
  | .idle | .returned _ _ => False
  | _ => True

/-- Whoever waits in `pthread_once` waits for a thread that can run. -/
theorem Inv.progress (h : Inv s) (hi : (s.thread i).inCall) :
    (∃ j t, run s j = some t) ∨ ∃ p t, Tsd.step s (.malloc i p) = some t := by
  cases hpc : s.thread i with
  | idle => simp [hpc, Pc.inCall] at hi
  | returned err p => simp [hpc, Pc.inCall] at hi
  | once err =>
    cases h.phase with
    | ready ho _ _ => exact .inl ⟨i, by simp [run, hpc, ho]⟩
    | running j e _ _ hj _ => exact .inl ⟨j, by simp [run, hj]⟩
    | done ho _ _ => exact .inl ⟨i, by simp [run, hpc, ho]⟩
  | createKey err => exact .inl ⟨i, by simp [run, hpc]⟩
  | getspecific err =>
    refine .inl ⟨i, ?_⟩
    simp only [run, hpc]
    split <;> simp
  | malloc err =>
    obtain ⟨p, hp⟩ := Infinite.exists_notMem_finset s.allocated.toFinset
    exact .inr ⟨p, by simp [Tsd.step, hpc, List.mem_toFinset.not.mp hp]⟩
  | setspecific err p => exact .inl ⟨i, by simp [run, hpc]⟩
  | fill err p k =>
    refine .inl ⟨i, ?_⟩
    simp only [run, hpc]
    split <;> simp

/-- Whatever the threads do, a thread whose call has returned finds the message for its error in the
buffer; the key is created once, and no thread allocates two buffers or is stuck in a call. -/
theorem tsd_threadSafe [Fintype ι] (table : Table) (mem : Nat → Mem) {s : State table ι}
    (hs : (machine table ι).Reachable (.init mem) s) :
    (∀ i err p, s.thread i = .returned err p → string (s.mem p) = text err) ∧
    s.keys ≤ 1 ∧ s.allocated.length ≤ Fintype.card ι ∧
    ∀ i, (s.thread i).inCall →
      (∃ j t, run s j = some t) ∨ ∃ p t, step s (.malloc i p) = some t := by
  have h : Inv s := hs.invariant (inv_init mem) fun _ _ _ h _ hn => by
    obtain ⟨i, hi⟩ := Step.of_step hn
    exact h.step hi
  refine ⟨fun i err p hi => ?_, h.keys_le, h.allocated_le, fun i => h.progress⟩
  have hok := h.ok i
  rw [hi] at hok
  exact hok.2

/-- The first call of a thread, which creates the key and allocates a buffer full of ones. -/
theorem tsd_threadSafe_first : ∃ s : State (fun _ => some [73]) (Fin 2),
    (machine (fun _ => some [73]) (Fin 2)).Reachable (.init fun _ _ => 1) s ∧
    s.thread 0 = .returned ⟨22, rfl⟩ 7 ∧ string (s.mem 7) = [73] := by
  obtain ⟨s, hs, hthread⟩ := (Machine.Reachable.self (machine (fun _ => some [73]) (Fin 2))
    (.init fun _ _ => 1)).exists_of_run (P := fun s => s.thread 0 = .returned ⟨22, rfl⟩ 7)
    [.call 0 ⟨22, rfl⟩, .run 0, .run 0, .run 0, .malloc 0 7, .run 0, .run 0, .run 0, .run 0] ⟨_, rfl, rfl⟩
  exact ⟨s, hs, hthread, (tsd_threadSafe (fun _ => some [73]) (fun _ _ => 1) hs).1 0 ⟨22, rfl⟩ 7 hthread⟩

end Tsd

end Tlpi.Strerror
