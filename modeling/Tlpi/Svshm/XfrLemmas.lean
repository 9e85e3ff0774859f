import Tlpi.Svshm.Xfr

/-!
# The lock-step protocol of writer and reader

The turn is one token: it is in `WRITE_SEM`, with the writer, in `READ_SEM` or with the reader
(`Control.token`). `Control` is the part of the invariant about control and the two objects,
`Data` the part about the bytes; the second is kept only together with the first.
-/

namespace Tlpi.SvshmXfr

@[simp] theorem write_ne_read : WRITE_SEM ≠ READ_SEM := by decide

@[simp] theorem read_ne_write : READ_SEM ≠ WRITE_SEM := by decide

/-- The writer has taken the write turn. -/
def WriterPc.holds : WriterPc → Nat
  | .read | .storeCnt _ | .release | .rmSem | .detach | .rmShm | .exited => 1
  | _ => 0

/-- The writer has posted the block in the segment and not yet left for the next one. -/
def WriterPc.afterPost : WriterPc → Bool
  | .testEof | .lastReserve | .rmSem | .detach | .rmShm | .exited => true
  | _ => false

/-- The writer has had its last turn. -/
def WriterPc.ended : WriterPc → Bool
  | .rmSem | .detach | .rmShm | .exited => true
  | _ => false

/-- The reader has taken the read turn. -/
def ReaderPc.holds : ReaderPc → Nat
  | .testEof | .count | .write | .release | .detach | .lastRelease => 1
  | _ => 0

/-- The reader has seen a block that is not the last one. -/
def ReaderPc.inBlock : ReaderPc → Bool
  | .count | .write | .release => true
  | _ => false

/-- The reader has seen the end of the input. -/
def ReaderPc.atEof : ReaderPc → Bool
  | .detach | .lastRelease | .exited => true
  | _ => false

structure Control (s : State) : Prop where
  token : s.sem WRITE_SEM + s.sem READ_SEM + s.wpc.holds + s.rpc.holds = 1
  writerBlock : s.wpc = .count → s.cnt ≠ 0
  readerBlock : s.rpc.inBlock → s.cnt ≠ 0
  writerEof : s.wpc = .lastReserve → s.cnt = 0
  -- during the reader's turn at the end marker the writer waits for its last turn
  eofTurn : s.sem READ_SEM + s.rpc.holds = 1 → s.cnt = 0 → s.wpc.afterPost
  readerEof : s.rpc.atEof → s.cnt = 0 ∧ s.wpc.afterPost
  -- the turn that comes back after the end marker comes from the reader's last call
  lastTurn : s.sem WRITE_SEM = 1 → s.wpc.afterPost → s.cnt = 0 → s.rpc = .exited
  ended : s.wpc.ended → s.rpc = .exited
  semSet : s.semSet = false → s.wpc.ended
  shmSeg : s.shmSeg = false → s.wpc.ended
  notFailed : s.rpc ≠ .failed

theorem ReaderPc.holds_of_inBlock {pc : ReaderPc} (h : pc.inBlock) : pc.holds = 1 := by
  cases pc <;> simp_all [ReaderPc.holds, ReaderPc.inBlock]

theorem control_initial (input : List UInt8) (sem : SemSet 2) (cnt : Int) (buf : List UInt8) :
    Control (initial input sem cnt buf) := by
  constructor <;>
    simp [initial, SemSet.initSemInUse, SemSet.initSemAvailable, WRITE_SEM, READ_SEM,
      WriterPc.holds, WriterPc.afterPost, WriterPc.ended,
      ReaderPc.holds, ReaderPc.inBlock, ReaderPc.atEof]

/-- A step of the writer from `w₀` that leaves `cnt` alone. -/
theorem Control.writerStep {s t : State} (H : Control s) {w₀ : WriterPc} (hw : s.wpc = w₀)
    (hr : t.rpc = s.rpc) (hcnt : t.cnt = s.cnt)
    (htoken : t.sem WRITE_SEM + t.sem READ_SEM + t.wpc.holds =
      s.sem WRITE_SEM + s.sem READ_SEM + w₀.holds)
    (hblock : t.wpc = .count → s.cnt ≠ 0) (heof : t.wpc = .lastReserve → s.cnt = 0)
    (hturn : t.sem READ_SEM + s.rpc.holds = 1 → s.cnt = 0 → t.wpc.afterPost)
    (hpost : s.cnt = 0 → w₀.afterPost → t.wpc.afterPost)
    (hlast : t.sem WRITE_SEM = 1 → t.wpc.afterPost → s.cnt = 0 → s.rpc = .exited)
    (hended : t.wpc.ended → s.rpc = .exited) (hmono : w₀.ended → t.wpc.ended)
    (hsem : t.semSet = s.semSet ∨ t.wpc.ended) (hshm : t.shmSeg = s.shmSeg ∨ t.wpc.ended) :
    Control t := by
  subst hw
  refine ⟨?_, hcnt ▸ hblock, ?_, hcnt ▸ heof, ?_, ?_, ?_, ?_, fun h => ?_, fun h => ?_, ?_⟩
  · have := H.token
    rw [hr]
    omega
  · rw [hr, hcnt]
    exact H.readerBlock
  · rw [hr, hcnt]
    exact hturn
  · rw [hr, hcnt]
    exact fun h => ⟨(H.readerEof h).1, hpost (H.readerEof h).1 (H.readerEof h).2⟩
  · rw [hr, hcnt]
    exact hlast
  · rw [hr]
    exact hended
  · exact hsem.elim (fun hs => hmono (H.semSet (hs ▸ h))) id
  · exact hshm.elim (fun hs => hmono (H.shmSeg (hs ▸ h))) id
  · rw [hr]
    exact H.notFailed

theorem control_writerRead {s t : State} {n : Nat} (H : Control s)
    (h : writerRead s n = some t) : Control t := by
  cases hw : s.wpc <;> simp only [writerRead, hw, reduceCtorEq, Option.ite_none_right_eq_some,
    Option.some.injEq] at h
  obtain ⟨-, rfl⟩ := h
  have token := H.token
  simp only [hw, WriterPc.holds] at token
  refine H.writerStep hw rfl rfl rfl nofun nofun (fun h => ?_) nofun nofun nofun nofun (.inl rfl)
    (.inl rfl)
  simp only at h
  omega

theorem control_writer {s t : State} (H : Control s) (h : writer s = some t) : Control t := by
  have token := H.token
  cases hw : s.wpc with
  | reserve =>
    simp only [writer, hw] at h
    obtain ⟨sem', hs, rfl⟩ := Option.map_eq_some_iff.mp h
    obtain ⟨hpos, rfl⟩ := SemSet.reserveSem_eq_some hs
    simp only [hw, WriterPc.holds] at token
    refine H.writerStep hw rfl rfl ?_ nofun nofun (fun h => ?_) nofun nofun nofun nofun (.inl rfl)
      (.inl rfl)
    · simp only [Function.update_self, Function.update_of_ne read_ne_write, WriterPc.holds]
      omega
    · simp only [Function.update_of_ne read_ne_write] at h
      omega
  | read => simp [writer, hw] at h
  | storeCnt n =>
    simp only [writer, hw, Option.some.injEq] at h
    subst h
    -- the writer holds the turn, so the reader does not
    have hr : s.rpc.holds = 0 ∧ s.sem READ_SEM = 0 := by
      simp only [hw, WriterPc.holds] at token
      omega
    refine ⟨by simpa [hw, WriterPc.holds] using token, nofun, fun hb => ?_, nofun, fun h1 => ?_,
      fun he => ?_, nofun, nofun, fun hs => ?_, fun hs => ?_, H.notFailed⟩
    · have := ReaderPc.holds_of_inBlock hb
      simp only at this
      omega
    · simp only at h1
      omega
    · simpa [hw, WriterPc.afterPost] using (H.readerEof he).2
    · simpa [hw, WriterPc.ended] using H.semSet hs
    · simpa [hw, WriterPc.ended] using H.shmSeg hs
  | release =>
    simp only [writer, hw, SemSet.releaseSem_eq, Option.map_some, Option.some.injEq] at h
    subst h
    simp only [hw, WriterPc.holds] at token
    refine H.writerStep hw rfl rfl ?_ nofun nofun (fun _ _ => rfl) nofun (fun h => ?_) nofun nofun
      (.inl rfl) (.inl rfl)
    · simp only [Function.update_self, Function.update_of_ne write_ne_read, WriterPc.holds]
      omega
    · simp only [Function.update_of_ne write_ne_read] at h
      omega
  | testEof =>
    simp only [writer, hw, Option.some.injEq] at h
    subst h
    have hlast := H.lastTurn
    rw [hw] at hlast
    by_cases hc : s.cnt = 0
    · simp only [hc, if_true]
      exact H.writerStep hw rfl hc.symm rfl nofun (fun _ => hc) (fun _ _ => rfl) (fun _ _ => rfl)
        (fun h _ => hlast h rfl) nofun nofun (.inl rfl) (.inl rfl)
    · simp only [hc, if_false]
      exact H.writerStep hw rfl rfl rfl (fun _ => hc) nofun (fun _ h0 => absurd h0 hc)
        (fun h0 => absurd h0 hc) nofun nofun nofun (.inl rfl) (.inl rfl)
  | count =>
    simp only [writer, hw, Option.some.injEq] at h
    subst h
    have hc := H.writerBlock hw
    exact H.writerStep hw rfl rfl rfl nofun nofun (fun _ h0 => absurd h0 hc) nofun nofun nofun
      nofun (.inl rfl) (.inl rfl)
  | lastReserve =>
    simp only [writer, hw] at h
    obtain ⟨sem', hs, rfl⟩ := Option.map_eq_some_iff.mp h
    obtain ⟨hpos, rfl⟩ := SemSet.reserveSem_eq_some hs
    have hlast := H.lastTurn
    simp only [hw, WriterPc.holds] at token hlast
    have hexit : s.rpc = .exited := hlast (by omega) rfl (H.writerEof hw)
    refine H.writerStep hw rfl rfl ?_ nofun nofun (fun _ _ => rfl) (fun _ _ => rfl)
      (fun _ _ _ => hexit) (fun _ => hexit) nofun (.inl rfl) (.inl rfl)
    simp only [Function.update_self, Function.update_of_ne read_ne_write, WriterPc.holds]
    omega
  | rmSem | detach | rmShm =>
    simp only [writer, hw, Option.some.injEq] at h
    subst h
    have hexit : s.rpc = .exited := H.ended (by simp [hw, WriterPc.ended])
    exact H.writerStep hw rfl rfl rfl nofun nofun (fun _ _ => rfl) (fun _ _ => rfl)
      (fun _ _ _ => hexit) (fun _ => hexit) (fun _ => rfl) (.inr rfl) (.inr rfl)
  | exited => simp [writer, hw] at h

/-- A step of the reader from `r₀`. -/
theorem Control.readerStep {s t : State} (H : Control s) {r₀ : ReaderPc} (hr : s.rpc = r₀)
    (hw : t.wpc = s.wpc) (hcnt : t.cnt = s.cnt) (hsem : t.semSet = s.semSet)
    (hshm : t.shmSeg = s.shmSeg) (hne : r₀ ≠ .exited)
    (htoken : t.sem WRITE_SEM + t.sem READ_SEM + t.rpc.holds =
      s.sem WRITE_SEM + s.sem READ_SEM + r₀.holds)
    (hblock : t.rpc.inBlock → s.cnt ≠ 0)
    (hturn : t.sem READ_SEM + t.rpc.holds = 1 → s.sem READ_SEM + r₀.holds = 1)
    (heof : t.rpc.atEof → s.cnt = 0 ∧ s.wpc.afterPost)
    (hlast : t.sem WRITE_SEM = s.sem WRITE_SEM ∨ s.cnt ≠ 0 ∨ t.rpc = .exited)
    (hfail : t.rpc ≠ .failed) : Control t := by
  subst hr
  have hended : ¬s.wpc.ended := fun h => hne (H.ended h)
  refine ⟨?_, ?_, hcnt ▸ hblock, ?_, fun h => ?_, ?_, fun h1 => ?_, ?_, ?_, ?_, hfail⟩
  · have := H.token
    rw [hw]
    omega
  · rw [hw, hcnt]
    exact H.writerBlock
  · rw [hw, hcnt]
    exact H.writerEof
  · rw [hw, hcnt]
    exact H.eofTurn (hturn h)
  · rw [hw, hcnt]
    exact heof
  · rw [hw, hcnt]
    intro hp h0
    rcases hlast with hl | hl | hl
    · exact absurd (H.lastTurn (hl ▸ h1) hp h0) hne
    · exact absurd h0 hl
    · exact hl
  · rw [hw]
    exact fun h => absurd h hended
  · rw [hw, hsem]
    exact H.semSet
  · rw [hw, hshm]
    exact H.shmSeg

/-- The objects are there until the reader has exited: a writer that has ended has let the reader
exit first. -/
theorem Control.objects {s : State} (H : Control s) (hr : s.rpc ≠ .exited) :
    s.semSet = true ∧ s.shmSeg = true := by
  have hended : ¬s.wpc.ended := fun h => hr (H.ended h)
  constructor
  · by_contra h
    exact hended (H.semSet (by simpa using h))
  · by_contra h
    exact hended (H.shmSeg (by simpa using h))

theorem control_reader {s t : State} (H : Control s) (h : reader s = some t) : Control t := by
  have token := H.token
  have hobj := H.objects
  cases hr : s.rpc with
  | semget | shmget | shmat =>
    obtain ⟨hsem, hshm⟩ := hobj (by simp [hr])
    simp only [reader, hr, hsem, hshm, if_true, Option.some.injEq] at h
    subst h
    exact H.readerStep hr rfl rfl hsem.symm hshm.symm nofun rfl nofun id nofun (.inl rfl) nofun
  | reserve =>
    obtain ⟨hsem, -⟩ := hobj (by simp [hr])
    simp only [reader, hr, hsem, if_true] at h
    obtain ⟨sem', hs, rfl⟩ := Option.map_eq_some_iff.mp h
    obtain ⟨hpos, rfl⟩ := SemSet.reserveSem_eq_some hs
    simp only [hr, ReaderPc.holds] at token
    refine H.readerStep hr rfl rfl hsem.symm rfl nofun ?_ nofun (fun _ => ?_) nofun
      (.inl ?_) nofun
    · simp only [Function.update_self, Function.update_of_ne write_ne_read, ReaderPc.holds]
      omega
    · simp only [ReaderPc.holds]
      omega
    · simp
  | testEof =>
    simp only [reader, hr, Option.some.injEq] at h
    subst h
    have hturn : s.sem READ_SEM + s.rpc.holds = 1 := by
      simp only [hr, ReaderPc.holds] at token ⊢
      omega
    by_cases hc : s.cnt = 0
    · simp only [hc, if_true]
      exact H.readerStep hr rfl hc.symm rfl rfl nofun rfl nofun id
        (fun _ => ⟨hc, H.eofTurn hturn hc⟩) (.inl rfl) nofun
    · simp only [hc, if_false]
      exact H.readerStep hr rfl rfl rfl rfl nofun rfl (fun _ => hc) id nofun (.inl rfl) nofun
  | count | write =>
    simp only [reader, hr, Option.some.injEq] at h
    subst h
    have hc := H.readerBlock (by simp [hr, ReaderPc.inBlock])
    exact H.readerStep hr rfl rfl rfl rfl nofun rfl (fun _ => hc) id nofun (.inl rfl) nofun
  | detach =>
    simp only [reader, hr, Option.some.injEq] at h
    subst h
    have heof := H.readerEof (by simp [hr, ReaderPc.atEof])
    exact H.readerStep hr rfl rfl rfl rfl nofun rfl nofun id (fun _ => heof) (.inl rfl) nofun
  | release =>
    obtain ⟨hsem, -⟩ := hobj (by simp [hr])
    simp only [reader, hr, hsem, if_true, SemSet.releaseSem_eq, Option.map_some,
      Option.some.injEq] at h
    subst h
    have hc := H.readerBlock (by simp [hr, ReaderPc.inBlock])
    simp only [hr, ReaderPc.holds] at token
    refine H.readerStep hr rfl rfl hsem.symm rfl nofun ?_ nofun (fun h1 => ?_) nofun
      (.inr (.inl hc)) nofun
    · simp only [Function.update_self, Function.update_of_ne read_ne_write, ReaderPc.holds]
      omega
    · simp only [Function.update_of_ne read_ne_write, ReaderPc.holds] at h1 ⊢
      omega
  | lastRelease =>
    obtain ⟨hsem, -⟩ := hobj (by simp [hr])
    simp only [reader, hr, hsem, if_true, SemSet.releaseSem_eq, Option.map_some,
      Option.some.injEq] at h
    subst h
    have heof := H.readerEof (by simp [hr, ReaderPc.atEof])
    simp only [hr, ReaderPc.holds] at token
    refine H.readerStep hr rfl rfl hsem.symm rfl nofun ?_ nofun (fun h1 => ?_) (fun _ => heof)
      (.inr (.inr rfl)) nofun
    · simp only [Function.update_self, Function.update_of_ne read_ne_write, ReaderPc.holds]
      omega
    · simp only [Function.update_of_ne read_ne_write, ReaderPc.holds] at h1 ⊢
      omega
  | exited | failed => simp [reader, hr] at h

/-! ### The bytes -/

/-- The block in the segment is the one the writer filled last. -/
def WriterPc.stored : WriterPc → Bool
  | .reserve | .read | .storeCnt _ => false
  | _ => true

/-- The reader has the turn and has not yet written the block out. -/
def ReaderPc.unwritten : ReaderPc → Bool
  | .testEof | .count | .write => true
  | _ => false

/-- The bytes in the segment that the reader has not yet written out. -/
def State.inFlight (s : State) : List UInt8 :=
  match s.wpc with
  | .storeCnt n => s.buf.take n
  | .release => s.buf.take s.cnt.toNat
  | _ => if s.sem READ_SEM = 1 ∨ s.rpc.unwritten then s.buf.take s.cnt.toNat else []

/-- The bytes that the writer has read but not yet added to its counter. -/
def State.uncounted (s : State) : Int :=
  match s.wpc with
  | .storeCnt n => n
  | .release | .testEof | .count => s.cnt
  | _ => 0

structure Data (input : List UInt8) (s : State) : Prop where
  split : s.stdout ++ s.inFlight ++ s.stdin = input
  wbytes : s.wbytes = wrap32 (input.length - s.stdin.length - s.uncounted)
  rbytes : s.rbytes = wrap32 (s.stdout.length + if s.rpc = .write then s.cnt else 0)
  storing : ∀ n, s.wpc = .storeCnt n → n ≤ s.buf.length ∧ (n = 0 → s.stdin = [])
  block : s.wpc.stored ∨ s.sem READ_SEM + s.rpc.holds = 1 →
    0 ≤ s.cnt ∧ s.cnt.toNat ≤ s.buf.length ∧ (s.cnt = 0 → s.stdin = [])

theorem ReaderPc.holds_of_unwritten {pc : ReaderPc} (h : pc.unwritten) : pc.holds = 1 := by
  cases pc <;> simp_all [ReaderPc.holds, ReaderPc.unwritten]

/-- What the reader has yet to copy of the block that was posted. -/
def State.uncopied (s : State) : List UInt8 :=
  if s.sem READ_SEM = 1 ∨ s.rpc.unwritten then s.buf.take s.cnt.toNat else []

/-- While the writer does not hold the turn, what is in flight is what the reader has to copy. -/
theorem inFlight_of_not_holds {s : State} (h : s.wpc.holds = 0) : s.inFlight = s.uncopied := by
  cases hw : s.wpc <;> simp_all [State.inFlight, State.uncopied, WriterPc.holds]

/-- While the writer has the turn, or it is the writer's to take, nothing else is in flight. -/
theorem not_reading {s : State} (H : Control s) (h : 0 < s.sem WRITE_SEM + s.wpc.holds) :
    s.sem READ_SEM = 0 ∧ s.rpc.holds = 0 ∧ s.rpc.unwritten = false := by
  have := H.token
  refine ⟨by omega, by omega, ?_⟩
  by_contra hu
  have := ReaderPc.holds_of_unwritten (by simpa using hu)
  omega

theorem data_initial (input : List UInt8) (sem : SemSet 2) (cnt : Int) (buf : List UInt8) :
    Data input (initial input sem cnt buf) := by
  constructor <;>
    simp [initial, SemSet.initSemInUse, SemSet.initSemAvailable, READ_SEM, State.inFlight,
      State.uncounted, ReaderPc.unwritten, WriterPc.stored, ReaderPc.holds, wrap, Int.bmod]

theorem data_writerRead {input : List UInt8} {s t : State} {n : Nat} (C : Control s)
    (D : Data input s) (h : writerRead s n = some t) : Data input t := by
  cases hw : s.wpc <;> simp only [writerRead, hw, reduceCtorEq, Option.ite_none_right_eq_some,
    Option.some.injEq] at h
  obtain ⟨hn, rfl⟩ := h
  have hle : n ≤ s.stdin.length := by rcases hn with ⟨rfl, -⟩ | ⟨-, -, h⟩ <;> omega
  have hz : n = 0 → s.stdin = [] := by
    rcases hn with ⟨-, h⟩ | ⟨h, -⟩
    · exact fun _ => h
    · omega
  obtain ⟨hR, hh, hu⟩ := not_reading C (by simp [hw, WriterPc.holds])
  have hsplit := D.split
  have hwb := D.wbytes
  simp only [State.inFlight, hw, hR, hu, State.uncounted] at hsplit hwb
  refine ⟨?_, ?_, D.rbytes, ?_, ?_⟩
  · simpa [State.inFlight, hle] using hsplit
  · simp only [State.uncounted, List.length_drop, hwb]
    congr 1
    omega
  · intro m hm
    cases hm
    exact ⟨by simp [hle], fun h0 => by simp [hz h0]⟩
  · simp [WriterPc.stored, hR, hh]

/-- A step of the writer after it has stored the count of its block. -/
theorem Data.writerStep {input : List UInt8} {s t : State} (D : Data input s)
    (hstored : s.wpc.stored) (hcnt : t.cnt = s.cnt) (hbuf : t.buf = s.buf)
    (hstdin : t.stdin = s.stdin) (hout : t.stdout = s.stdout) (hr : t.rpc = s.rpc)
    (hrb : t.rbytes = s.rbytes) (hflight : t.inFlight = s.inFlight)
    (hwb : t.wbytes = wrap32 (input.length - s.stdin.length - t.uncounted))
    (hpc : ∀ n, t.wpc ≠ .storeCnt n) : Data input t := by
  refine ⟨?_, ?_, ?_, fun n hn => absurd hn (hpc n), fun _ => ?_⟩
  · rw [hout, hflight, hstdin]
    exact D.split
  · rw [hstdin]
    exact hwb
  · rw [hrb, hout, hr, hcnt]
    exact D.rbytes
  · rw [hcnt, hbuf, hstdin]
    exact D.block (.inl hstored)

theorem data_writer {input : List UInt8} {s t : State} (C : Control s) (D : Data input s)
    (h : writer s = some t) : Data input t := by
  obtain ⟨hsplit, hwb, hrb, hstoring, hblock⟩ := id D
  cases hw : s.wpc with
  | reserve =>
    simp only [writer, hw] at h
    obtain ⟨sem', hs, rfl⟩ := Option.map_eq_some_iff.mp h
    obtain ⟨hpos, rfl⟩ := SemSet.reserveSem_eq_some hs
    obtain ⟨hR, hh, hu⟩ := not_reading C (by omega)
    simp only [State.inFlight, hw, hR, hu, State.uncounted] at hsplit hwb
    refine ⟨?_, ?_, hrb, ?_, ?_⟩
    · simpa [State.inFlight, hR, hu] using hsplit
    · simpa [State.uncounted] using hwb
    · intro n hn; cases hn
    · simp_all [WriterPc.stored]
  | read => simp [writer, hw] at h
  | storeCnt n =>
    simp only [writer, hw, Option.some.injEq] at h
    subst h
    obtain ⟨hle, hz⟩ := hstoring n hw
    obtain ⟨hR, hh, hu⟩ := not_reading C (by simp [hw, WriterPc.holds])
    have hrw : s.rpc ≠ .write := by rintro h; simp [h, ReaderPc.holds] at hh
    simp only [State.inFlight, hw, State.uncounted] at hsplit hwb
    refine ⟨?_, ?_, ?_, ?_, ?_⟩
    · simpa [State.inFlight] using hsplit
    · simpa [State.uncounted] using hwb
    · simpa [hrw] using hrb
    · intro n hn; cases hn
    · exact fun _ => by simpa [hle] using hz
  | release =>
    simp only [writer, hw, SemSet.releaseSem_eq, Option.map_some, Option.some.injEq] at h
    subst h
    obtain ⟨hR, -, -⟩ := not_reading C (by simp [hw, WriterPc.holds])
    refine D.writerStep (by simp [hw, WriterPc.stored]) rfl rfl rfl rfl rfl rfl ?_ ?_ nofun
    · simp [State.inFlight, hw, hR]
    · simpa [State.uncounted, hw] using hwb
  | testEof =>
    simp only [writer, hw, Option.some.injEq] at h
    subst h
    refine D.writerStep (by simp [hw, WriterPc.stored]) rfl rfl rfl rfl rfl rfl ?_ ?_ fun n => ?_
    · by_cases hc : s.cnt = 0 <;> simp [State.inFlight, hw, hc]
    · by_cases hc : s.cnt = 0 <;> simpa [State.uncounted, hw, hc] using hwb
    · by_cases hc : s.cnt = 0 <;> simp [hc]
  | count =>
    simp only [writer, hw, Option.some.injEq] at h
    subst h
    refine D.writerStep (by simp [hw, WriterPc.stored]) rfl rfl rfl rfl rfl rfl ?_ ?_ nofun
    · simp [State.inFlight, hw]
    · simp only [State.uncounted, hw, wrap32] at hwb ⊢
      rw [hwb, wrap_add_wrap]
      congr 1
      omega
  | lastReserve =>
    simp only [writer, hw] at h
    obtain ⟨sem', hs, rfl⟩ := Option.map_eq_some_iff.mp h
    obtain ⟨hpos, rfl⟩ := SemSet.reserveSem_eq_some hs
    refine D.writerStep (by simp [hw, WriterPc.stored]) rfl rfl rfl rfl rfl rfl ?_ ?_ nofun
    · simp [State.inFlight, hw]
    · simpa [State.uncounted, hw] using hwb
  | rmSem | detach | rmShm =>
    simp only [writer, hw, Option.some.injEq] at h
    subst h
    refine D.writerStep (by simp [hw, WriterPc.stored]) rfl rfl rfl rfl rfl rfl ?_ ?_ nofun
    · simp [State.inFlight, hw]
    · simpa [State.uncounted, hw] using hwb
  | exited => simp [writer, hw] at h

/-- While the reader holds the turn, the writer does not. -/
theorem not_writing {s : State} (H : Control s) (h : 0 < s.sem READ_SEM + s.rpc.holds) :
    s.wpc.holds = 0 ∧ s.sem READ_SEM + s.rpc.holds = 1 := by
  have := H.token
  omega

/-- A step of the reader in its turn. -/
theorem Data.readerStep {input : List UInt8} {s t : State} (D : Data input s) (C : Control s)
    (hturn : 0 < s.sem READ_SEM + s.rpc.holds) (hw : t.wpc = s.wpc) (hcnt : t.cnt = s.cnt)
    (hbuf : t.buf = s.buf) (hstdin : t.stdin = s.stdin) (hwb : t.wbytes = s.wbytes)
    (hout : t.stdout ++ t.uncopied = s.stdout ++ s.uncopied)
    (hrb : t.rbytes = wrap32 (t.stdout.length + if t.rpc = .write then s.cnt else 0)) :
    Data input t := by
  obtain ⟨hnw, hone⟩ := not_writing C hturn
  have hb := D.block (.inr hone)
  refine ⟨?_, ?_, ?_, ?_, fun _ => ?_⟩
  · rw [inFlight_of_not_holds (hw ▸ hnw), hout, hstdin, ← inFlight_of_not_holds hnw]
    exact D.split
  · simp only [hwb, hstdin, State.uncounted, hw, hcnt]
    exact D.wbytes
  · rw [hcnt]
    exact hrb
  · rw [hw, hbuf, hstdin]
    exact D.storing
  · rw [hcnt, hbuf, hstdin]
    exact hb

theorem data_reader {input : List UInt8} {s t : State} (C : Control s) (D : Data input s)
    (h : reader s = some t) : Data input t := by
  obtain ⟨hsplit, hwb, hrb, hstoring, hblock⟩ := id D
  have hf := (control_reader C h).notFailed
  have token := C.token
  cases hr : s.rpc with
  | semget | shmget | shmat =>
    simp only [reader, hr, Option.some.injEq] at h
    subst h
    obtain ⟨hobj, -⟩ := ite_ne_right_iff.mp hf
    simp only [hobj, if_true]
    refine ⟨?_, hwb, ?_, hstoring, ?_⟩
    · simpa [State.inFlight, hr, ReaderPc.unwritten] using hsplit
    · simpa [hr] using hrb
    · simpa [hr, ReaderPc.holds] using hblock
  | reserve =>
    simp only [reader, hr] at h
    split at h
    · obtain ⟨sem', hs, rfl⟩ := Option.map_eq_some_iff.mp h
      obtain ⟨hpos, rfl⟩ := SemSet.reserveSem_eq_some hs
      have hR : s.sem READ_SEM = 1 := by omega
      refine D.readerStep C (by omega) rfl rfl rfl rfl rfl ?_ (by simpa [hr] using hrb)
      simp [State.uncopied, ReaderPc.unwritten, hR]
    · cases h
      exact absurd rfl hf
  | testEof =>
    simp only [reader, hr, Option.some.injEq] at h
    subst h
    refine D.readerStep C (by simp [hr, ReaderPc.holds]) rfl rfl rfl rfl rfl ?_ ?_
    · by_cases hc : s.cnt = 0 <;> simp [State.uncopied, hr, ReaderPc.unwritten, hc]
    · by_cases hc : s.cnt = 0 <;> simpa [hr, hc] using hrb
  | count =>
    simp only [reader, hr, Option.some.injEq] at h
    subst h
    refine D.readerStep C (by simp [hr, ReaderPc.holds]) rfl rfl rfl rfl rfl ?_ ?_
    · simp [State.uncopied, hr, ReaderPc.unwritten]
    · simp [hrb, hr, wrap32, wrap_add_wrap]
  | write =>
    simp only [reader, hr, Option.some.injEq] at h
    subst h
    obtain ⟨-, hone⟩ := not_writing C (by simp [hr, ReaderPc.holds])
    obtain ⟨h0, hle, -⟩ := hblock (.inr hone)
    have hR : s.sem READ_SEM ≠ 1 := by
      simp only [hr, ReaderPc.holds] at hone
      omega
    refine D.readerStep C (by simp [hr, ReaderPc.holds]) rfl rfl rfl rfl rfl ?_ ?_
    · simp [State.uncopied, hr, ReaderPc.unwritten, hR]
    · simp [hrb, hr, hle, h0]
  | release | lastRelease =>
    simp only [reader, hr] at h
    split at h
    · simp only [SemSet.releaseSem_eq, Option.map_some, Option.some.injEq] at h
      subst h
      refine D.readerStep C (by simp [hr, ReaderPc.holds]) rfl rfl rfl rfl rfl ?_
        (by simpa [hr] using hrb)
      simp [State.uncopied, hr, ReaderPc.unwritten]
    · cases h
      exact absurd rfl hf
  | detach =>
    simp only [reader, hr, Option.some.injEq] at h
    subst h
    refine D.readerStep C (by simp [hr, ReaderPc.holds]) rfl rfl rfl rfl rfl ?_
      (by simpa [hr] using hrb)
    simp [State.uncopied, hr, ReaderPc.unwritten]
  | exited => simp [reader, hr] at h
  | failed => simp [reader, hr] at h

/-! ### Whole runs -/

theorem inv_next {input : List UInt8} {s t : State} {a : Label} (H : Control s ∧ Data input s)
    (h : machine.next s a = some t) : Control t ∧ Data input t := by
  obtain ⟨C, D⟩ := H
  cases a with
  | writer => exact ⟨control_writer C h, data_writer C D h⟩
  | writerRead n => exact ⟨control_writerRead C h, data_writerRead C D h⟩
  | reader => exact ⟨control_reader C h, data_reader C D h⟩
  | writerEintr | readerEintr =>
    simp only [machine, Option.ite_none_right_eq_some, Option.some.injEq] at h
    exact h.2 ▸ ⟨C, D⟩

section
variable {input : List UInt8} {sem : SemSet 2} {cnt : Int} {buf : List UInt8} {s : State}

theorem reachable_inv (h : machine.Reachable (initial input sem cnt buf) s) :
    Control s ∧ Data input s :=
  h.invariant ⟨control_initial .., data_initial ..⟩ fun _ _ _ H _ hn => inv_next H hn

/-- A reader that has exited has written everything out. -/
theorem Data.stdout_eq (C : Control s) (D : Data input s) (h : s.rpc = .exited) :
    s.stdout = input := by
  obtain ⟨hc, hpost⟩ := C.readerEof (by simp [h, ReaderPc.atEof])
  have hstored : s.wpc.stored := by
    cases hw : s.wpc <;> simp_all [WriterPc.afterPost, WriterPc.stored]
  obtain ⟨-, -, hz⟩ := D.block (.inl hstored)
  have hnil : s.inFlight = [] := by
    cases hw : s.wpc <;> simp_all [State.inFlight, WriterPc.afterPost]
  simpa [hz hc, hnil] using D.split

end

/-- What the programs promise in a state of the transfer of `input`. -/
structure LockStep (input : List UInt8) (s : State) : Prop where
  turns : s.sem WRITE_SEM + s.sem READ_SEM ≤ 1
  exclusive : ¬ (s.Filling ∧ s.Copying)
  output : s.stdout <+: input
  complete : s.rpc = .exited → s.stdout = input
  readerCount : s.rpc = .exited → s.rbytes = input.length
  writerCount : s.wpc = .exited → s.wbytes = input.length
  -- the objects are removed only after the reader's last call, which is how it gets to exit
  removal : s.semSet = false ∨ s.shmSeg = false → s.rpc = .exited
  reader : s.rpc ≠ .failed

theorem filling_holds {s : State} (h : s.Filling) : s.wpc.holds = 1 := by
  rcases h with h | ⟨n, h⟩ | h <;> simp [h, WriterPc.holds]

theorem copying_holds {s : State} (h : s.Copying) : s.rpc.holds = 1 := by
  rcases h with h | h | h | h <;> simp [h, ReaderPc.holds]

/-- The invariant gives the whole promise as long as the counters do not overflow. -/
theorem LockStep.of_inv {input : List UInt8} {s : State} (hlen : input.length < 2 ^ 31)
    (C : Control s) (D : Data input s) : LockStep input s where
  turns := by have := C.token; omega
  exclusive := by
    rintro ⟨hw, hr⟩
    have := filling_holds hw
    have := copying_holds hr
    have := C.token
    omega
  output := ⟨s.inFlight ++ s.stdin, by simpa using D.split⟩
  complete h := D.stdout_eq C h
  readerCount h := by
    rw [D.rbytes, D.stdout_eq C h, h]
    simpa using wrap_natCast_iff.mpr hlen
  writerCount h := by
    have hr := C.ended (by simp [h, WriterPc.ended])
    have hin : s.stdin = [] := by
      have hs := D.split
      rw [D.stdout_eq C hr] at hs
      simp only [List.append_assoc, List.append_right_eq_self, List.append_eq_nil_iff] at hs
      exact hs.2
    rw [D.wbytes, hin]
    simpa [State.uncounted, h] using wrap_natCast_iff.mpr hlen
  removal h := by
    rcases h with h | h
    · exact C.ended (C.semSet h)
    · exact C.ended (C.shmSeg h)
  reader := C.notFailed

/-! ### Every transfer can be completed -/

/-- Both processes are about to start on the next block. -/
structure Idle (rest : List UInt8) (s : State) : Prop where
  wpc : s.wpc = .reserve
  rpc : s.rpc = .reserve
  write : s.sem WRITE_SEM = 1
  read : s.sem READ_SEM = 0
  semSet : s.semSet = true
  stdin : s.stdin = rest

theorem idle_start (input : List UInt8) (sem : SemSet 2) (cnt : Int) (buf : List UInt8) :
    ∃ t, machine.Reachable (initial input sem cnt buf) t ∧ Idle input t := by
  refine Machine.Reachable.exists_of_run [.reader, .reader, .reader] .refl ⟨_, rfl, ?_⟩
  constructor <;> simp [initial, SemSet.initSemInUse, SemSet.initSemAvailable]

/-- The writer has posted a block of `n` bytes, and the reader is about to take its turn. -/
structure Posted (n : Nat) (rest : List UInt8) (s : State) : Prop where
  wpc : s.wpc = .testEof
  rpc : s.rpc = .reserve
  write : s.sem WRITE_SEM = 0
  read : s.sem READ_SEM = 1
  semSet : s.semSet = true
  cnt : s.cnt = n
  stdin : s.stdin = rest

/-- The writer fills the segment and posts the block. -/
theorem idle_post {n : Nat} {rest : List UInt8} {s₀ s : State} (h : machine.Reachable s₀ s)
    (H : Idle rest s) (hn : ReadReturns rest n) :
    ∃ t, machine.Reachable s₀ t ∧ Posted n (rest.drop n) t := by
  obtain ⟨hw, hr, hW, hR, hsem, rfl⟩ := H
  refine h.exists_of_run [.writer, .writerRead n, .writer, .writer] ?_
  simp only [machine, Machine.run, writer, hw, SemSet.reserveSem_of_pos (hW ▸ Nat.one_pos),
    Option.map_some, Option.bind_some, writerRead, hn, if_true, SemSet.releaseSem_eq]
  exact ⟨_, rfl, rfl, hr, by simp [hW], by simp [hR], hsem, rfl, rfl⟩

/-- The reader copies a block, and both start on the next one. -/
theorem posted_block {n : Nat} {rest : List UInt8} {s₀ s : State} (h : machine.Reachable s₀ s)
    (H : Posted n rest s) (hn : n ≠ 0) : ∃ t, machine.Reachable s₀ t ∧ Idle rest t := by
  obtain ⟨hw, hr, hW, hR, hsem, hcnt, rfl⟩ := H
  have hc : s.cnt ≠ 0 := by omega
  refine h.exists_of_run [.writer, .writer, .reader, .reader, .reader, .reader, .reader] ?_
  simp only [machine, Machine.run, writer, hw, hc, if_false, Option.bind_some, reader, hr, hsem,
    if_true, SemSet.reserveSem_of_pos (hR ▸ Nat.one_pos), Option.map_some, SemSet.releaseSem_eq]
  exact ⟨_, rfl, rfl, rfl, by simp [hW], by simp [hR], rfl, rfl⟩

/-- The reader sees the end marker and leaves. -/
theorem posted_eof {rest : List UInt8} {s₀ s : State} (h : machine.Reachable s₀ s)
    (H : Posted 0 rest s) : ∃ t, machine.Reachable s₀ t ∧ t.rpc = .exited := by
  obtain ⟨hw, hr, hW, hR, hsem, hcnt, rfl⟩ := H
  refine h.exists_of_run [.reader, .reader, .reader, .reader] ?_
  simp only [machine, Machine.run, reader, hr, hsem, if_true, hcnt, Int.ofNat_zero,
    SemSet.reserveSem_of_pos (hR ▸ Nat.one_pos), Option.map_some, Option.bind_some,
    SemSet.releaseSem_eq]
  exact ⟨_, rfl, rfl⟩

/-- The reader of any input can get to its exit. -/
theorem reaches_exit (input : List UInt8) (sem : SemSet 2) (cnt : Int) (buf : List UInt8) :
    ∃ t, machine.Reachable (initial input sem cnt buf) t ∧ t.rpc = .exited := by
  obtain ⟨s, hs, hidle⟩ := idle_start input sem cnt buf
  generalize initial input sem cnt buf = s₀ at hs
  induction input generalizing s with
  | nil =>
    obtain ⟨t, ht, hposted⟩ := idle_post hs hidle (.inl ⟨rfl, rfl⟩)
    exact posted_eof ht hposted
  | cons b rest ih =>
    obtain ⟨t, ht, hposted⟩ := idle_post hs hidle (n := 1) (.inr ⟨le_rfl, by decide, by simp⟩)
    obtain ⟨u, hu, hidle⟩ := posted_block ht hposted Nat.one_ne_zero
    exact ih u hidle hu

/-- The programs keep their promise on every run exactly for inputs whose length fits the `int`
byte counters. -/
theorem lockStep_iff (input : List UInt8) (sem : SemSet 2) (cnt : Int) (buf : List UInt8) :
    (∀ s, machine.Reachable (initial input sem cnt buf) s → LockStep input s) ↔
      input.length < 2 ^ 31 := by
  constructor
  · intro h
    obtain ⟨t, ht, hexit⟩ := reaches_exit input sem cnt buf
    obtain ⟨C, D⟩ := reachable_inv ht
    have hcount := (h t ht).readerCount hexit
    rw [D.rbytes, D.stdout_eq C hexit, hexit] at hcount
    exact wrap_natCast_iff.mp (by simpa using hcount)
  · intro hlen s hs
    obtain ⟨C, D⟩ := reachable_inv hs
    exact .of_inv hlen C D

/-- On 2 GiB of input the reader exits with a byte counter that is not the input's length. -/
theorem not_lockStep_two_gib : ∃ s,
    machine.Reachable (initial (List.replicate (2 ^ 31) 0) (fun _ => 0) 0 []) s ∧
      s.rpc = .exited ∧ s.rbytes ≠ (List.replicate (2 ^ 31) (0 : UInt8)).length := by
  obtain ⟨t, ht, hexit⟩ := reaches_exit (List.replicate (2 ^ 31) 0) (fun _ => 0) 0 []
  obtain ⟨C, D⟩ := reachable_inv ht
  refine ⟨t, ht, hexit, ?_⟩
  rw [D.rbytes, D.stdout_eq C hexit, hexit, List.length_replicate]
  simp only [reduceCtorEq, if_false, Int.add_zero]
  intro h
  exact absurd (wrap_natCast_iff.mp h) (Nat.lt_irrefl _)

end Tlpi.SvshmXfr
