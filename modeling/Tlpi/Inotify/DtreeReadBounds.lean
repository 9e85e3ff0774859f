import Tlpi.Lib.Decimal
import Tlpi.Inotify.DtreeReadRuns

/-!
# The bounds of the read buffer

The first `read` of `processInotifyEvents` asks for as many bytes as the `-b` option says, which
`main` does not check against the size of the buffer; the secondary one asks for what the buffer has
left. The size is also what is skipped when the cache was rebuilt, which is enough to end the loop as
long as no more was read.
-/

namespace Tlpi.InotifyDtree

variable {κ : Type} {K : Kernel κ}

/-- The reader when `main` has parsed its options; `optb` is the argument of the last `-b`. -/
def Reader.start (s : State κ) (optb : Option CString) : Reader κ where
  state := s
  readBufferSize := optb.elim 0 Num.atoi
  pc := .select
  buf := []
  numRead := 0
  evp := 0
  firstTry := true
  events := []
  handed := []

/-- The position in the buffer and the count of the `read` that comes next. -/
def Reader.request (m : Reader κ) : Option (Int × Int) :=
  match m.pc with
  | .select => some (0, if 0 < m.readBufferSize then m.readBufferSize else INOTIFY_READ_BUF_LEN)
  | .loop => none
  | .secondaryRead => some (m.numRead, INOTIFY_READ_BUF_LEN - m.numRead)

/-- From here on nothing is handed to `processNextInotifyEvent` until the loop is left, and it can be
left. -/
def Reader.Ends (K : Kernel κ) (m : Reader κ) : Prop :=
  ∀ as t, (reader K).run m as = some t → .leave ∉ as → t.handed = m.handed ∧ t.leave.isSome

/-- A `read` fits into the buffer, and the loop ends after a call that skips the whole buffer. -/
structure InBounds (K : Kernel κ) (m : Reader κ) : Prop where
  fits : ∀ pos cnt, m.request = some (pos, cnt) →
    0 ≤ pos ∧ 0 ≤ cnt ∧ pos + cnt ≤ INOTIFY_READ_BUF_LEN
  skips : ∀ ev nextEv s, m.pc = .loop → m.evp < m.numRead → m.examine = some (ev, nextEv) →
    processNextInotifyEvent K m.state ev nextEv m.firstTry = .ok (s, (INOTIFY_READ_BUF_LEN : Int)) →
    ∃ t, m.process K = some t ∧ t.Ends K

/-- What the loop keeps: no more bytes than the buffer has. -/
structure NumReadLe (size : Int) (m : Reader κ) : Prop where
  size_eq : m.readBufferSize = size
  loop : m.pc = .loop → m.numRead ≤ INOTIFY_READ_BUF_LEN
  secondary : m.pc = .secondaryRead → 0 ≤ m.numRead ∧ m.numRead ≤ INOTIFY_READ_BUF_LEN

variable {m m' : Reader κ} {size : Int}

theorem NumReadLe.process (h : NumReadLe size m) (hn : m.process K = some m') :
    NumReadLe size m' := by
  obtain ⟨hpc, hlt, ev, nextEv, s, evLen, -, -, rfl⟩ := process_cases hn
  have hle := h.loop hpc
  rw [Reader.advance]
  split
  · exact ⟨h.size_eq, fun _ => hle, fun hs => absurd (hpc.symm.trans hs) (by simp)⟩
  · refine ⟨h.size_eq, by simp, fun _ => ?_⟩
    dsimp only
    omega

theorem NumReadLe.next (h : NumReadLe size m) {a : ReaderStep κ}
    (hn : (reader K).next m a = some m') : NumReadLe size m' := by
  cases a with
  | primaryRead evs =>
    change m.primaryRead evs = some m' at hn
    rw [Reader.primaryRead, Option.ite_none_right_eq_some] at hn
    obtain ⟨⟨-, -, hfits⟩, hn⟩ := hn
    cases hn
    exact ⟨h.size_eq, fun _ => Int.ofNat_le.mpr hfits, by simp⟩
  | process => exact h.process hn
  | leave =>
    change m.leave = some m' at hn
    rw [Reader.leave, Option.ite_none_right_eq_some] at hn
    cases hn.2
    exact ⟨h.size_eq, by simp, by simp⟩
  | secondaryRead evs =>
    change m.secondaryRead evs = some m' at hn
    rw [Reader.secondaryRead, Option.ite_none_right_eq_some] at hn
    obtain ⟨⟨-, -, -, hfits⟩, hn⟩ := hn
    cases hn
    refine ⟨h.size_eq, fun _ => ?_, by simp⟩
    dsimp only
    omega
  | interrupted =>
    change m.interrupted = some m' at hn
    rw [Reader.interrupted, Option.ite_none_right_eq_some] at hn
    obtain ⟨hpc, hn⟩ := hn
    have := h.secondary hpc
    cases hn
    refine ⟨h.size_eq, fun _ => ?_, by simp⟩
    dsimp only
    omega
  | command input arg₀ =>
    change m.command K input arg₀ = some m' at hn
    rw [Reader.command, Option.ite_none_right_eq_some] at hn
    obtain ⟨-, hn⟩ := hn
    obtain ⟨s, -, rfl⟩ := Option.map_eq_some_iff.mp hn
    exact ⟨h.size_eq, h.loop, h.secondary⟩
  | kernel k =>
    cases hn
    exact ⟨h.size_eq, h.loop, h.secondary⟩

/-- At the end of the loop the kernel goes on, but the loop can only be left. -/
theorem Reader.ends_of_le (hpc : m.pc = .loop) (hle : m.numRead ≤ m.evp) : m.Ends K := by
  intro as
  induction as generalizing m with
  | nil =>
    rintro t ⟨⟩ -
    rw [Reader.leave, if_pos ⟨hpc, hle⟩]
    exact ⟨rfl, rfl⟩
  | cons a as ih =>
    intro t hr hleave
    obtain ⟨u, hu, hr⟩ := Option.bind_eq_some_iff.mp hr
    rw [List.mem_cons, not_or] at hleave
    have hsel : m.pc ≠ .select := by simp [hpc]
    have hsec : m.pc ≠ .secondaryRead := by simp [hpc]
    cases a with
    | primaryRead evs => exact absurd hu (by simp [reader, Reader.primaryRead, hsel])
    | process =>
      obtain ⟨-, hlt, -⟩ := process_cases hu
      omega
    | leave => exact absurd rfl hleave.1
    | secondaryRead evs => exact absurd hu (by simp [reader, Reader.secondaryRead, hsec])
    | interrupted => exact absurd hu (by simp [reader, Reader.interrupted, hsec])
    | command input arg₀ => exact absurd hu (by simp [reader, Reader.command, hsel])
    | kernel k =>
      cases hu
      exact ih (m := { m with state := { m.state with kernel := k } }) hpc hle t hr hleave.2

theorem NumReadLe.inBounds (h : NumReadLe size m) (hsize : size ≤ INOTIFY_READ_BUF_LEN) :
    InBounds K m where
  fits pos cnt hreq := by
    have hbuf : (0 : Int) ≤ INOTIFY_READ_BUF_LEN := by decide
    have hreadBuffer := h.size_eq
    unfold Reader.request at hreq
    split at hreq
    · cases hreq
      split <;> omega
    · cases hreq
    · next hpc =>
      have := h.secondary hpc
      cases hreq
      omega
  skips ev nextEv s hpc hlt hex hcall := by
    have hle := h.loop hpc
    refine ⟨m.advance (.ofResult ev nextEv INOTIFY_READ_BUF_LEN) s INOTIFY_READ_BUF_LEN, ?_, ?_⟩
    · rw [Reader.process, if_pos ⟨hpc, hlt⟩, hex, Option.bind_some]
      dsimp only
      rw [hcall]
      rfl
    · rw [advance_pos m _ s (by decide)]
      refine Reader.ends_of_le hpc ?_
      dsimp only
      omega

/-- In every run of the program, whatever is delivered, the reads stay in the buffer and a rebuild
ends the loop, exactly if the `-b` option does not say more than the size of the buffer. -/
theorem reader_inBounds_iff (K : Kernel κ) (s : State κ) (optb : Option CString) :
    (∀ m, (reader K).Reachable (.start s optb) m → InBounds K m) ↔
      optb.elim 0 Num.atoi ≤ INOTIFY_READ_BUF_LEN := by
  constructor
  · intro h
    have hfits := (h _ (.self ..)).fits 0 _ rfl
    change _ ∧ _ ∧ 0 + (if 0 < optb.elim 0 Num.atoi then optb.elim 0 Num.atoi
      else INOTIFY_READ_BUF_LEN) ≤ _ at hfits
    split at hfits
    · omega
    · have hbuf : (0 : Int) ≤ INOTIFY_READ_BUF_LEN := by decide
      omega
  · intro hsize m hm
    have hinv : NumReadLe (optb.elim 0 Num.atoi) m :=
      hm.invariant ⟨rfl, nofun, nofun⟩ fun _ _ _ h _ hn => h.next hn
    exact hinv.inBounds hsize

/-- With `-b 30000` the first `read` asks for more than the 27200 bytes of the buffer. -/
theorem not_reader_inBounds : ¬∀ m, (reader oneDir).Reachable (.start oneRoot (some "30000".toList)) m →
    InBounds oneDir m := by
  intro h
  have hfits := (h _ (.self ..)).fits 0 30000 (by decide)
  exact absurd hfits.2.2 (by decide)

end Tlpi.InotifyDtree
