import Tlpi.Lib.CBuf
import Tlpi.Lib.Machine
import Tlpi.Lib.Monitor
import Tlpi.Lib.Tally

/-!
# Reading several FIFOs with epoll

`epoll_input` closes a file descriptor when an event says that the other end hung up and does not
say that there is input. The events of one `epoll_wait` are handled one after the other, and until
an event's turn comes the writers go on. What one `read` returns is printed up to its first null
byte.
-/

namespace Tlpi.EpollInput

open Function

def MAX_BUF : Nat := 1000
def MAX_EVENTS : Nat := 5

structure Fifo where
  data : List UInt8
  writers : Nat

/-- An event, with its file descriptor. -/
structure Event (ι : Type*) where
  fd : ι
  epollin : Bool
  epollhup : Bool

/-- `evlist` holds the events that are still to be handled; `input fd` is what was read from a file
descriptor, `output fd` what was printed of that, and `written fd` is what was ever written to its
FIFO. -/
structure State (ι : Type*) where
  fifo : ι → Fifo
  isOpen : ι → Bool
  numOpenFds : Int
  evlist : List (Event ι)
  input : ι → List UInt8
  output : ι → List UInt8
  written : ι → List UInt8

/-- What the processes do that write to the FIFOs. -/
inductive Other (ι : Type*)
  | openFifo (fd : ι)
  | write (fd : ι) (bytes : List UInt8)
  | close (fd : ι)

/-- What the program does. -/
inductive Own (ι : Type*)
  | epollWait (fds : List ι)
  | handle

/-- What `epoll_wait` reports for a FIFO. -/
def report {ι : Type*} (s : State ι) (fd : ι) : Event ι :=
  ⟨fd, (s.fifo fd).data ≠ [], (s.fifo fd).writers = 0⟩

/-- The FIFO is on the ready list. -/
def Ready {ι : Type*} (s : State ι) (fd : ι) : Prop :=
  s.isOpen fd ∧ ((s.fifo fd).data ≠ [] ∨ (s.fifo fd).writers = 0)

instance {ι : Type*} (s : State ι) (fd : ι) : Decidable (Ready s fd) :=
  inferInstanceAs (Decidable (_ ∧ _))

section

variable {ι : Type*} [DecidableEq ι]

/-- The program has opened all FIFOs. -/
def State.init [Fintype ι] (fifo : ι → Fifo) : State ι where
  fifo := fifo
  isOpen _ := true
  numOpenFds := Fintype.card ι
  evlist := []
  input _ := []
  output _ := []
  written fd := (fifo fd).data

/-- `read` for an event with `EPOLLIN`, and what `%.*s` prints of the bytes. -/
def readInput (s : State ι) (fd : ι) : State ι :=
  let buf := (s.fifo fd).data.take MAX_BUF
  { s with
    fifo := update s.fifo fd ⟨(s.fifo fd).data.drop MAX_BUF, (s.fifo fd).writers⟩
    input := update s.input fd (s.input fd ++ buf)
    output := update s.output fd (s.output fd ++ cstr buf) }

def closeFd (s : State ι) (fd : ι) : State ι := { s with
  isOpen := update s.isOpen fd false
  numOpenFds := s.numOpenFds - 1 }

/-- The body of the loop over the events. -/
def handle (s : State ι) (ev : Event ι) : State ι :=
  if ev.epollin then readInput s ev.fd
  else if ev.epollhup then closeFd s ev.fd
  else s

/-- `epoll_wait` returns some of the FIFOs on the ready list. -/
def own (s : State ι) : Own ι → Option (State ι)
  | .epollWait fds =>
    if s.evlist = [] ∧ 0 < s.numOpenFds ∧ fds ≠ [] ∧ fds.length ≤ MAX_EVENTS ∧ fds.Nodup ∧
      ∀ fd ∈ fds, Ready s fd
    then some { s with evlist := fds.map (report s) } else none
  | .handle =>
    match s.evlist with
    | [] => none
    | ev :: evs => some (handle { s with evlist := evs } ev)

def other (s : State ι) : Other ι → Option (State ι)
  | .openFifo fd => some { s with
      fifo := update s.fifo fd ⟨(s.fifo fd).data, (s.fifo fd).writers + 1⟩ }
  | .write fd bytes =>
    if 0 < (s.fifo fd).writers then some { s with
      fifo := update s.fifo fd ⟨(s.fifo fd).data ++ bytes, (s.fifo fd).writers⟩
      written := update s.written fd (s.written fd ++ bytes) }
    else none
  | .close fd =>
    if 0 < (s.fifo fd).writers then some { s with
      fifo := update s.fifo fd ⟨(s.fifo fd).data, (s.fifo fd).writers - 1⟩ }
    else none

/-- The program by itself. -/
def program (ι : Type*) [DecidableEq ι] : Machine (State ι) (Own ι) := ⟨own⟩

def machine (ι : Type*) [DecidableEq ι] : Machine (State ι) (Other ι ⊕ Own ι) where
  next s
    | .inl a => other s a
    | .inr a => own s a

/-- Nobody opens a FIFO for writing that has lost its last writer. -/
def NoReopen (s : State ι) : Other ι ⊕ Own ι → Prop
  | .inl (.openFifo fd) => 0 < (s.fifo fd).writers
  | _ => True

end

/-! ### The invariant -/

/-- An event that is still to be handled is still true. -/
structure Event.Ok {ι : Type*} (s : State ι) (ev : Event ι) : Prop where
  isOpen : s.isOpen ev.fd
  input : ev.epollin → (s.fifo ev.fd).data ≠ []
  noInput : ¬ev.epollin → ev.epollhup ∧ (s.fifo ev.fd).data = [] ∧ (s.fifo ev.fd).writers = 0

structure Inv {ι : Type*} [Fintype ι] (s : State ι) : Prop where
  written : ∀ fd, s.written fd = s.input fd ++ (s.fifo fd).data
  output : ∀ fd, 0 ∉ s.input fd → s.output fd = s.input fd
  closed : ∀ fd, s.isOpen fd = false → (s.fifo fd).data = [] ∧ (s.fifo fd).writers = 0
  numOpenFds : s.numOpenFds = count id s.isOpen
  nodup : (s.evlist.map (·.fd)).Nodup
  evlist : ∀ ev ∈ s.evlist, ev.Ok s

section

variable {ι : Type*} [Fintype ι] [DecidableEq ι] {s t : State ι} {fd : ι}

omit [DecidableEq ι] in
theorem inv_init (fifo : ι → Fifo) : Inv (State.init fifo) where
  written _ := rfl
  output _ _ := rfl
  closed _ h := by cases h
  numOpenFds := by rw [count_of_forall fun _ => rfl]; rfl
  nodup := List.nodup_nil
  evlist _ h := by cases h

/-- What the writers do to a FIFO that they have open. -/
theorem Inv.other_step (h : Inv s) {f : Fifo} {w : List UInt8} (hopen : 0 < (s.fifo fd).writers)
    (hwritten : w = s.input fd ++ f.data) (hinput : (s.fifo fd).data ≠ [] → f.data ≠ []) :
    Inv { s with fifo := update s.fifo fd f, written := update s.written fd w } := by
  have hne : ∀ fd', (s.fifo fd').writers = 0 → fd' ≠ fd := by
    rintro _ h0 rfl
    omega
  refine ⟨fun fd' => ?_, h.output, fun fd' hcl => ?_, h.numOpenFds, h.nodup, fun ev hev => ?_⟩
  · rcases eq_or_ne fd' fd with rfl | hfd
    · simpa using hwritten
    · simpa [hfd] using h.written fd'
  · have hfd := hne fd' (h.closed fd' hcl).2
    simpa [hfd] using h.closed fd' hcl
  · have hok := h.evlist ev hev
    refine ⟨hok.isOpen, fun hin => ?_, fun hin => ?_⟩
    · rcases eq_or_ne ev.fd fd with hfd | hfd
      · simpa [hfd] using hinput (hfd ▸ hok.input hin)
      · simpa [hfd] using hok.input hin
    · have hfd := hne ev.fd (hok.noInput hin).2.2
      simpa [hfd] using hok.noInput hin

theorem Inv.other (h : Inv s) {a : Other ι} (ha : NoReopen s (.inl a)) (hn : other s a = some t) :
    Inv t := by
  cases a with
  | openFifo fd =>
    obtain rfl := Option.some.inj hn
    have := h.other_step (f := ⟨(s.fifo fd).data, (s.fifo fd).writers + 1⟩) ha (h.written fd) id
    rwa [update_eq_self] at this
  | write fd bytes =>
    simp only [EpollInput.other, Option.ite_none_right_eq_some, Option.some_inj] at hn
    obtain ⟨hw, rfl⟩ := hn
    refine h.other_step hw ?_ fun hne => by simp [hne]
    rw [h.written fd, List.append_assoc]
  | close fd =>
    simp only [EpollInput.other, Option.ite_none_right_eq_some, Option.some_inj] at hn
    obtain ⟨hw, rfl⟩ := hn
    have := h.other_step (f := ⟨(s.fifo fd).data, (s.fifo fd).writers - 1⟩) hw (h.written fd) id
    rwa [update_eq_self] at this

theorem Inv.readInput (h : Inv s) (fd : ι) (hfd : ∀ ev ∈ s.evlist, ev.fd ≠ fd) :
    Inv (readInput s fd) := by
  refine ⟨fun fd' => ?_, fun fd' h0 => ?_, fun fd' hcl => ?_, h.numOpenFds, h.nodup,
    fun ev hev => ?_⟩
  · rcases eq_or_ne fd' fd with rfl | hne
    · simp [EpollInput.readInput, h.written fd']
    · simpa [EpollInput.readInput, hne] using h.written fd'
  · rcases eq_or_ne fd' fd with rfl | hne
    · simp only [EpollInput.readInput, update_self, List.mem_append, not_or] at h0 ⊢
      rw [h.output fd' h0.1, cstr_eq_self h0.2]
    · simp only [EpollInput.readInput, update_of_ne hne] at h0 ⊢
      exact h.output fd' h0
  · have hold := h.closed fd' hcl
    rcases eq_or_ne fd' fd with rfl | hne
    · simp [EpollInput.readInput, hold]
    · simpa [EpollInput.readInput, hne] using hold
  · have hok := h.evlist ev hev
    have hne := hfd ev hev
    refine ⟨hok.isOpen, fun hin => ?_, fun hin => ?_⟩
    · simpa [EpollInput.readInput, hne] using hok.input hin
    · simpa [EpollInput.readInput, hne] using hok.noInput hin

/-- A file descriptor is closed when there is no input left and no writer. -/
theorem Inv.closeFd (h : Inv s) (hopen : s.isOpen fd) (hdata : (s.fifo fd).data = [])
    (hwriters : (s.fifo fd).writers = 0) (hfd : ∀ ev ∈ s.evlist, ev.fd ≠ fd) :
    Inv (closeFd s fd) := by
  refine ⟨h.written, h.output, fun fd' hcl => ?_, ?_, h.nodup, fun ev hev => ?_⟩
  · rcases eq_or_ne fd' fd with rfl | hne
    · exact ⟨hdata, hwriters⟩
    · exact h.closed fd' (by simpa [EpollInput.closeFd, hne] using hcl)
  · have hcount := count_update id s.isOpen fd false
    simp only [id, hopen, Bool.toNat_true, Bool.toNat_false] at hcount
    simp only [EpollInput.closeFd, h.numOpenFds]
    omega
  · have hok := h.evlist ev hev
    refine ⟨?_, hok.input, hok.noInput⟩
    simpa [EpollInput.closeFd, hfd ev hev] using hok.isOpen

theorem Inv.own (h : Inv s) {a : Own ι} (hn : own s a = some t) : Inv t := by
  cases a with
  | epollWait fds =>
    simp only [EpollInput.own, Option.ite_none_right_eq_some, Option.some_inj] at hn
    obtain ⟨⟨-, -, -, -, hnodup, hready⟩, rfl⟩ := hn
    refine ⟨h.written, h.output, h.closed, h.numOpenFds, ?_, fun ev hev => ?_⟩
    · rw [List.map_map]
      exact (List.map_id fds).symm ▸ hnodup
    · obtain ⟨fd, hfd, rfl⟩ := List.mem_map.mp hev
      obtain ⟨hopen, hr⟩ := hready fd hfd
      refine ⟨hopen, fun hin => by simpa [report] using hin, fun hin => ?_⟩
      have hdata : (s.fifo fd).data = [] := by simpa [report] using hin
      have hw := hr.resolve_left fun hne => hne hdata
      exact ⟨by simpa [report] using hw, hdata, hw⟩
  | handle =>
    simp only [EpollInput.own] at hn
    split at hn
    · cases hn
    · next ev evs hevlist =>
      obtain rfl := Option.some.inj hn
      have hnodup := h.nodup
      rw [hevlist, List.map_cons, List.nodup_cons] at hnodup
      have hfd : ∀ ev' ∈ evs, ev'.fd ≠ ev.fd := fun ev' hev' heq =>
        hnodup.1 (heq ▸ List.mem_map_of_mem hev')
      have hrest : Inv { s with evlist := evs } :=
        ⟨h.written, h.output, h.closed, h.numOpenFds, hnodup.2, fun ev' hev' => by
          have hok := h.evlist ev' (by simp [hevlist, hev'])
          exact ⟨hok.isOpen, hok.input, hok.noInput⟩⟩
      have hok := h.evlist ev (by simp [hevlist])
      rw [EpollInput.handle]
      split
      · exact hrest.readInput ev.fd hfd
      · next hin =>
        obtain ⟨hhup, hdata, hw⟩ := hok.noInput hin
        rw [if_pos hhup]
        exact hrest.closeFd hok.isOpen hdata hw hfd

/-! ### Progress -/

/-- How often an event for the file descriptor is still to be handled when nothing more is
written. -/
def toHandle (isOpen : Bool) (f : Fifo) : Nat :=
  if isOpen then (f.data.length + (MAX_BUF - 1)) / MAX_BUF + 1 else 0

def State.rank (s : State ι) : Nat :=
  2 * ∑ fd, toHandle (s.isOpen fd) (s.fifo fd) + if s.evlist = [] then 1 else 0

theorem toHandle_read {f : Fifo} (h : f.data ≠ []) {w : Nat} :
    toHandle true ⟨f.data.drop MAX_BUF, w⟩ + 1 = toHandle true f := by
  have hpos : 0 < f.data.length := List.length_pos_iff.mpr h
  simp only [toHandle, if_true, List.length_drop, MAX_BUF]
  omega

theorem sum_toHandle (fd : ι) {isOpen isOpen' : ι → Bool} {fifo fifo' : ι → Fifo}
    (hne : ∀ fd', fd' ≠ fd → isOpen' fd' = isOpen fd' ∧ fifo' fd' = fifo fd')
    (hfd : toHandle (isOpen' fd) (fifo' fd) + 1 = toHandle (isOpen fd) (fifo fd)) :
    ∑ fd, toHandle (isOpen' fd) (fifo' fd) + 1 = ∑ fd, toHandle (isOpen fd) (fifo fd) := by
  have hmem := Finset.mem_univ fd
  rw [← Finset.add_sum_erase _ _ hmem, ← Finset.add_sum_erase _ _ hmem, ← hfd]
  have hrest : ∑ fd' ∈ Finset.univ.erase fd, toHandle (isOpen' fd') (fifo' fd') =
      ∑ fd' ∈ Finset.univ.erase fd, toHandle (isOpen fd') (fifo fd') := by
    refine Finset.sum_congr rfl fun fd' hfd' => ?_
    obtain ⟨ho, hf⟩ := hne fd' (Finset.ne_of_mem_erase hfd')
    rw [ho, hf]
  omega

theorem Inv.rank_own (h : Inv s) {a : Own ι} (hn : EpollInput.own s a = some t) :
    t.rank < s.rank := by
  cases a with
  | epollWait fds =>
    simp only [EpollInput.own, Option.ite_none_right_eq_some, Option.some_inj] at hn
    obtain ⟨⟨hnil, -, hfds, -⟩, rfl⟩ := hn
    simp [State.rank, hnil, hfds]
  | handle =>
    simp only [EpollInput.own] at hn
    split at hn
    · cases hn
    · next ev evs hevlist =>
      obtain rfl := Option.some.inj hn
      have hok := h.evlist ev (by simp [hevlist])
      have hsum : ∑ fd, toHandle ((handle { s with evlist := evs } ev).isOpen fd)
          ((handle { s with evlist := evs } ev).fifo fd) + 1 =
          ∑ fd, toHandle (s.isOpen fd) (s.fifo fd) := by
        refine sum_toHandle ev.fd (fun fd' hne => ?_) ?_
        · simp only [EpollInput.handle, EpollInput.readInput, EpollInput.closeFd]
          split
          · simp [hne]
          · split
            · simp [hne]
            · simp
        · rw [hok.isOpen, EpollInput.handle]
          split
          · next hin =>
            simpa [EpollInput.readInput, hok.isOpen] using toHandle_read (hok.input hin)
          · next hin =>
            obtain ⟨hhup, hdata, -⟩ := hok.noInput hin
            simp [hhup, EpollInput.closeFd, toHandle, hdata, MAX_BUF]
      rw [State.rank, State.rank, hevlist, if_neg (List.cons_ne_nil _ _)]
      split <;> omega

omit [Fintype ι] in
theorem writers_own {a : Own ι} (hn : EpollInput.own s a = some t) (fd : ι) :
    (t.fifo fd).writers = (s.fifo fd).writers := by
  cases a with
  | epollWait fds =>
    simp only [EpollInput.own, Option.ite_none_right_eq_some, Option.some_inj] at hn
    rw [← hn.2]
  | handle =>
    simp only [EpollInput.own] at hn
    split at hn
    · cases hn
    · next ev evs _ =>
      obtain rfl := Option.some.inj hn
      simp only [EpollInput.handle, EpollInput.readInput, EpollInput.closeFd]
      split
      · rcases eq_or_ne fd ev.fd with rfl | hne
        · simp
        · simp [hne]
      · split <;> rfl

omit [DecidableEq ι] in
theorem Inv.input_of_closed (h : Inv s) (hcl : s.isOpen fd = false) :
    s.input fd = s.written fd := by
  rw [h.written fd, (h.closed fd hcl).1, List.append_nil]

omit [DecidableEq ι] in
/-- Null bytes apart, what is read is printed. -/
theorem Inv.output_of_written (h : Inv s) (h0 : 0 ∉ s.written fd) : s.output fd = s.input fd :=
  h.output fd fun hin => h0 (h.written fd ▸ List.mem_append_left _ hin)

/-- The program goes on as long as a file descriptor is open. -/
theorem Inv.own_or_done (h : Inv s) (hw : ∀ fd, (s.fifo fd).writers = 0) :
    (∃ a t, EpollInput.own s a = some t) ∨
      (s.numOpenFds = 0 ∧ ∀ fd, s.input fd = s.written fd ∧
        (0 ∉ s.written fd → s.output fd = s.written fd)) := by
  cases hevlist : s.evlist with
  | cons ev evs => exact .inl ⟨.handle, by simp [EpollInput.own, hevlist]⟩
  | nil =>
    by_cases hopen : ∃ fd, s.isOpen fd
    · obtain ⟨fd, hfd⟩ := hopen
      have hpos : 0 < count id s.isOpen := Nat.pos_of_ne_zero fun h0 => by
        simpa [hfd] using count_eq_zero_iff.mp h0 fd
      have hnum : 0 < s.numOpenFds := by
        rw [h.numOpenFds]
        exact_mod_cast hpos
      refine .inl ⟨.epollWait [fd], ?_⟩
      simp [EpollInput.own, hevlist, hnum, MAX_EVENTS, Ready, hfd, hw fd]
    · have hclosed : ∀ fd, s.isOpen fd = false := by simpa using hopen
      have hcount : count id s.isOpen = 0 := count_eq_zero_iff.mpr hclosed
      refine .inr ⟨by rw [h.numOpenFds, hcount]; rfl, fun fd => ?_⟩
      have hinput := h.input_of_closed (hclosed fd)
      exact ⟨hinput, fun h0 => (h.output_of_written h0).trans hinput⟩

/-- What is written to the FIFOs is read in order, and printed where it has no null byte, completely
before a file descriptor is closed, and the program ends when the last writers are gone. -/
theorem all_input_printed (fifo : ι → Fifo)
    (hs : (machine ι).ReachableBy NoReopen (.init fifo) s) :
    (∀ fd, s.input fd <+: s.written fd ∧ (0 ∉ s.written fd → s.output fd = s.input fd)) ∧
    (∀ fd, s.isOpen fd = false → s.input fd = s.written fd) ∧
    ((∀ fd, (s.fifo fd).writers = 0) → (program ι).EndsWithin s s.rank fun t =>
      t.numOpenFds = 0 ∧ ∀ fd, t.input fd = t.written fd ∧
        (0 ∉ t.written fd → t.output fd = t.written fd)) := by
  have h : Inv s := hs.invariant (inv_init fifo) fun s a t h ha hn => by
    cases a with
    | inl a => exact h.other ha hn
    | inr a => exact h.own hn
  refine ⟨fun fd => ⟨h.written fd ▸ List.prefix_append .., h.output_of_written⟩,
    fun fd => h.input_of_closed, fun hw => ?_⟩
  exact .of_rank (I := fun s => Inv s ∧ ∀ fd, (s.fifo fd).writers = 0)
    (fun s a t h hn => ⟨h.1.own hn, fun fd => (writers_own hn fd).trans (h.2 fd)⟩)
    (fun s a t h hn => h.1.rank_own hn) (fun s h => h.1.own_or_done h.2) ⟨h, hw⟩

end

/-- A writer leaves two bytes behind. -/
theorem all_input_printed_two : ∃ s : State (Fin 1),
    (machine (Fin 1)).ReachableBy NoReopen (.init fun _ => ⟨[104, 105], 1⟩) s ∧
    (program (Fin 1)).EndsWithin s 5 fun t =>
      t.numOpenFds = 0 ∧ ∀ fd, t.input fd = t.written fd ∧
        (0 ∉ t.written fd → t.output fd = t.written fd) := by
  have hs : (machine (Fin 1)).ReachableBy NoReopen (.init fun _ => ⟨[104, 105], 1⟩) _ :=
    .step (a := .inl (.close 0)) .refl trivial rfl
  exact ⟨_, hs, (all_input_printed _ hs).2.2 (by simp [State.init])⟩

end Tlpi.EpollInput
