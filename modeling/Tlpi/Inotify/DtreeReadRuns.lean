import Mathlib.Data.List.Chain
import Tlpi.Inotify.DtreeRead
import Tlpi.Inotify.DtreeInvariant

/-!
# Accounting for the events read

At the head of the loop of `processInotifyEvents` the bytes from `evp` on are the events that were
not dealt with yet, unless the cache was rebuilt. An interrupted secondary read breaks this, since
its result -1 is added to `numRead`.
-/

namespace Tlpi.InotifyDtree

variable {κ : Type} {K : Kernel κ}

/-! ### Events in the buffer -/

theorem Event.size_pos (ev : Event) : 16 ≤ ev.size := Nat.le_add_right _ _

@[simp] theorem Event.length_cells (ev : Event) : ev.cells.length = ev.size := by
  have := ev.size_pos
  simp only [Event.cells, List.length_cons, List.length_replicate]
  omega

@[simp] theorem encode_nil : encode [] = [] := rfl

@[simp] theorem encode_cons (ev : Event) (evs : List Event) :
    encode (ev :: evs) = ev.cells ++ encode evs := rfl

@[simp] theorem encode_eq_nil {evs : List Event} : encode evs = [] ↔ evs = [] := by
  cases evs with
  | nil => simp
  | cons ev evs => simp [Event.cells]

theorem eventAt_of_drop {buf : List Cell} {offset : Nat} {ev : Event} {evs : List Event}
    (h : buf.drop offset = encode (ev :: evs)) : eventAt buf offset = some ev := by
  have hlen := congrArg List.length h
  have h0 : buf[offset]? = some (.first ev) := by
    have := congrArg (·[0]?) h
    simpa [Event.cells] using this
  have hlt := (List.getElem?_eq_some_iff.mp h0).1
  rw [List.length_drop, encode_cons, List.length_append, ev.length_cells] at hlen
  rw [eventAt, h0]
  exact if_pos (by omega)

theorem encode_cons_inj {ev ev' : Event} {evs evs' : List Event}
    (h : encode (ev :: evs) = encode (ev' :: evs')) : ev = ev' := by
  have := congrArg List.head? h
  simpa [Event.cells] using this

theorem drop_add_size {buf : List Cell} {offset : Nat} {ev : Event} {evs : List Event}
    (h : buf.drop offset = encode (ev :: evs)) : buf.drop (offset + ev.size) = encode evs := by
  rw [← List.drop_drop, h, encode_cons, ← ev.length_cells, List.drop_left]

/-! ### The loop -/

/-- The bytes from `evp` on are the events of `pending`, and exactly these are examined. -/
structure Pending (m : Reader κ) (pending : List Event) : Prop where
  drop_eq : m.buf.drop m.evp = encode pending
  examine_eq : ∀ ev rest, pending = ev :: rest →
    m.evp < m.numRead ∧ m.examine = some (ev, rest.head?)
  le_of_nil : pending = [] → m.numRead ≤ m.evp

theorem pending_iff {m : Reader κ} (hn : m.numRead = m.buf.length) {pending : List Event} :
    Pending m pending ↔ m.buf.drop m.evp = encode pending := by
  refine ⟨fun h => h.drop_eq, fun h => ⟨h, ?_, ?_⟩⟩
  · rintro ev rest rfl
    have hlen := congrArg List.length h
    have hsize := ev.size_pos
    rw [List.length_drop, encode_cons, List.length_append, ev.length_cells] at hlen
    refine ⟨by omega, ?_⟩
    rw [Reader.examine, eventAt_of_drop h]
    have hdrop := drop_add_size h
    cases rest with
    | nil =>
      rw [encode_nil, List.length_nil] at hlen
      exact if_neg (by omega)
    | cons n rest =>
      rw [encode_cons, List.length_append, n.length_cells] at hlen
      have hsize' := n.size_pos
      refine (if_pos (by omega)).trans ?_
      rw [eventAt_of_drop hdrop]
      rfl
  · rintro rfl
    rw [encode_nil, List.drop_eq_nil_iff] at h
    omega

/-- The cache has been rebuilt and the loop is at its end. -/
structure Discarded (K : Kernel κ) (m : Reader κ) : Prop where
  rebuilt : ∃ ev, m.handed.getLast? = some (.rebuilt ev)
  le : m.numRead ≤ m.evp
  built : ∃ u fd t, reinitialize K u fd = .ok t ∧ m.state.cache = t.cache

/-- Nothing is handed after a rebuild, and an event to be retried is handed once more. -/
def Follows (h h' : Handing) : Prop :=
  (∀ ev, h ≠ .rebuilt ev) ∧ ∀ ev, h = .retry ev → h'.event = ev ∧ h' ≠ .retry ev

/-- Only an `IN_MOVED_FROM` of a directory is handed twice, and that at once. -/
structure HandedOnce (handed : List Handing) : Prop where
  chain : handed.IsChain Follows
  movedFrom : ∀ ev, .retry ev ∈ handed → ev.movedFromDir = true

/-- The accounts at the head of the loop. -/
structure LoopAccounts (K : Kernel κ) (m : Reader κ) : Prop where
  numRead_eq : m.numRead = m.buf.length
  in_order : ∃ pending, m.handed.flatMap Handing.consumed ++ pending = m.events ∧
    (Pending m pending ∨ Discarded K m)
  once : HandedOnce m.handed

/-- The accounts at the secondary read: the event to be retried is the whole of the buffer. -/
structure RetryAccounts (m : Reader κ) : Prop where
  numRead_eq : m.numRead = m.buf.length
  at_end : ∃ ev, m.handed.getLast? = some (.retry ev) ∧ m.buf = ev.cells ∧
    m.handed.flatMap Handing.consumed ++ [ev] = m.events
  once : HandedOnce m.handed

def Accounts (K : Kernel κ) (m : Reader κ) : Prop :=
  (m.pc = .loop → LoopAccounts K m) ∧ (m.pc = .secondaryRead → RetryAccounts m)

/-- The accounts, with what keeps them: the events fit into the buffer, an event that was handed and
is to be retried is the next one, and the loop is at its end after a rebuild. -/
structure ReaderInv (K : Kernel κ) (m : Reader κ) : Prop where
  accounts : Accounts K m
  length_le : m.pc ≠ .select → m.buf.length ≤ INOTIFY_READ_BUF_LEN
  len_le : m.pc ≠ .select → ∀ ev ∈ m.events, ev.len ≤ NAME_MAX + 1
  retry : m.pc = .loop → ∀ ev, m.handed.getLast? = some (.retry ev) → m.firstTry = false ∧
    ∃ rest, m.buf.drop m.evp = encode (ev :: rest)
  rebuilt : m.pc = .loop → ∀ ev, m.handed.getLast? = some (.rebuilt ev) → m.numRead ≤ m.evp
  firstTry : m.pc = .secondaryRead → m.firstTry = false

theorem HandedOnce.concat {handed : List Handing} (h : HandedOnce handed) {new : Handing}
    (hlast : ∀ last ∈ handed.getLast?, Follows last new)
    (hnew : ∀ ev, new = .retry ev → ev.movedFromDir = true) : HandedOnce (handed ++ [new]) where
  chain := by
    rw [List.isChain_append]
    refine ⟨h.chain, .singleton new, fun last hl n hn => ?_⟩
    rw [List.head?_cons, Option.mem_some_iff] at hn
    exact hn ▸ hlast last hl
  movedFrom ev hev := by
    rcases List.mem_append.mp hev with hev | hev
    · exact h.movedFrom ev hev
    · exact hnew ev (List.mem_singleton.mp hev).symm

theorem process_cases {m m' : Reader κ} (h : m.process K = some m') :
    m.pc = .loop ∧ m.evp < m.numRead ∧ ∃ ev nextEv s evLen, m.examine = some (ev, nextEv) ∧
      EventResult K ev nextEv m.firstTry s evLen ∧
      m' = m.advance (.ofResult ev nextEv evLen) s evLen := by
  rw [Reader.process, Option.ite_none_right_eq_some] at h
  obtain ⟨⟨hpc, hlt⟩, h⟩ := h
  obtain ⟨⟨ev, nextEv⟩, hex, h⟩ := Option.bind_eq_some_iff.mp h
  obtain ⟨⟨s, evLen⟩, hs, rfl⟩ := Option.map_eq_some_iff.mp h
  have hres := (processNextInotifyEvent_spec m.state ev nextEv m.firstTry).of_toOption hs
  exact ⟨hpc, hlt, ev, nextEv, s, evLen, hex, hres.result, rfl⟩

/-- The rest of the loop body when some bytes were consumed. -/
theorem advance_pos (m : Reader κ) (handing : Handing) (s : State κ) {evLen : Nat}
    (h : 0 < evLen) : m.advance handing s evLen = { m with
      state := s
      handed := m.handed ++ [handing]
      evp := m.evp + evLen
      firstTry := true } :=
  if_pos (Int.natCast_pos.mpr h)

theorem ofResult_single (ev : Event) (nextEv : Option Event) :
    Handing.ofResult ev nextEv ev.size = .single ev := by
  rw [Handing.ofResult.eq_def, if_neg (by omega), if_pos rfl]

theorem ofResult_pair (ev n : Event) :
    Handing.ofResult ev (some n) (ev.size + n.size : Nat) = .pair ev n := by
  have := n.size_pos
  rw [Handing.ofResult.eq_def, if_neg (by omega), if_neg (by omega)]
  exact if_pos rfl

theorem ofResult_rebuilt {ev : Event} {nextEv : Option Event} (hev : ev.len ≤ NAME_MAX + 1)
    (hnext : ∀ n, nextEv = some n → n.len ≤ NAME_MAX + 1) :
    Handing.ofResult ev nextEv INOTIFY_READ_BUF_LEN = .rebuilt ev := by
  simp only [NAME_MAX] at hev hnext
  have hbuf : INOTIFY_READ_BUF_LEN = 27200 := rfl
  have hsize : ev.size ≤ 272 := by simp only [Event.size, eventHeaderSize]; omega
  rw [Handing.ofResult.eq_def, if_neg (by omega), if_neg (by omega)]
  cases nextEv with
  | none => rfl
  | some n =>
    have hn := hnext n rfl
    have hsize' : n.size ≤ 272 := by simp only [Event.size, eventHeaderSize]; omega
    exact if_neg (by omega)

theorem ReaderInv.of_select {m : Reader κ} (h : m.pc = .select) : ReaderInv K m := by
  have hl : m.pc ≠ .loop := by rw [h]; nofun
  have hs : m.pc ≠ .secondaryRead := by rw [h]; nofun
  exact ⟨⟨fun h => absurd h hl, fun h => absurd h hs⟩, fun h' => absurd h h', fun h' => absurd h h',
    fun h => absurd h hl, fun h => absurd h hl, fun h => absurd h hs⟩

/-- The event at the head of the loop may be handed, for the first time if it is to be retried. -/
theorem ReaderInv.follows {m : Reader κ} (hinv : ReaderInv K m) (hpc : m.pc = .loop)
    (hlt : m.evp < m.numRead) {ev : Event} {rest : List Event}
    (hdrop : m.buf.drop m.evp = encode (ev :: rest)) {new : Handing} (hev : new.event = ev)
    (hnew : new = .retry ev → m.firstTry = true) :
    ∀ last ∈ m.handed.getLast?, Follows last new := by
  intro last hlast
  refine ⟨?_, ?_⟩
  · rintro e rfl
    have := hinv.rebuilt hpc e hlast
    omega
  · rintro e rfl
    obtain ⟨hft, rest', hr⟩ := hinv.retry hpc e hlast
    obtain rfl := encode_cons_inj (hdrop.symm.trans hr)
    refine ⟨hev, fun h => ?_⟩
    rw [hnew h] at hft
    cases hft

/-- The event at the head of the loop. -/
theorem ReaderInv.head {m : Reader κ} (hinv : ReaderInv K m) (hpc : m.pc = .loop)
    (hlt : m.evp < m.numRead) {ev : Event} {nextEv : Option Event}
    (hex : m.examine = some (ev, nextEv)) : ∃ rest, nextEv = rest.head? ∧
      m.handed.flatMap Handing.consumed ++ ev :: rest = m.events ∧
      m.buf.drop m.evp = encode (ev :: rest) := by
  obtain ⟨-, ⟨pending, horder, hpend⟩, -⟩ := hinv.accounts.1 hpc
  have hpend : Pending m pending := by
    refine hpend.resolve_right fun hd => ?_
    have := hd.le
    omega
  cases pending with
  | nil =>
    have := hpend.le_of_nil rfl
    omega
  | cons ev' rest =>
    have := (hpend.examine_eq ev' rest rfl).2
    rw [hex] at this
    cases this
    exact ⟨rest, rfl, horder, hpend.drop_eq⟩

/-- The loop goes on when some events were consumed. -/
theorem ReaderInv.advance {m : Reader κ} (hinv : ReaderInv K m) (hpc : m.pc = .loop)
    {new : Handing} {s : State κ} {evLen : Nat} {rest : List Event} (hpos : 0 < evLen)
    (honce : HandedOnce (m.handed ++ [new])) (hnot : ∀ ev, new ≠ .retry ev)
    (horder : m.handed.flatMap Handing.consumed ++ (new.consumed ++ rest) = m.events)
    (hrest : m.buf.drop (m.evp + evLen) = encode rest ∧ (∀ ev, new ≠ .rebuilt ev) ∨
      (∃ ev, new = .rebuilt ev) ∧ m.numRead ≤ (m.evp + evLen : Nat) ∧
        ∃ u fd, reinitialize K u fd = .ok s) :
    ReaderInv K (m.advance new s evLen) := by
  have hns : m.pc ≠ .select := by rw [hpc]; nofun
  rw [advance_pos m new s hpos]
  refine ⟨⟨fun _ => ⟨(hinv.accounts.1 hpc).numRead_eq, ⟨rest, ?_, ?_⟩, honce⟩, ?_⟩, ?_, ?_, ?_, ?_, ?_⟩
  · simpa using horder
  · rcases hrest with ⟨hdrop, -⟩ | ⟨⟨ev, rfl⟩, hle, u, fd, hb⟩
    · exact .inl ((pending_iff (by exact (hinv.accounts.1 hpc).numRead_eq)).mpr hdrop)
    · exact .inr ⟨⟨ev, by simp⟩, hle, u, fd, s, hb, rfl⟩
  · simp [hpc]
  · exact fun _ => hinv.length_le hns
  · exact fun _ => hinv.len_le hns
  · intro _ ev hev
    rw [List.getLast?_concat] at hev
    exact absurd (Option.some.inj hev) (hnot ev)
  · intro _ ev hev
    rw [List.getLast?_concat] at hev
    exact (hrest.resolve_left fun h => h.2 ev (Option.some.inj hev)).2.1
  · simp [hpc]

/-- The step of the loop: a call of `processNextInotifyEvent`. -/
theorem ReaderInv.process {m m' : Reader κ} (hinv : ReaderInv K m) (h : m.process K = some m') :
    ReaderInv K m' := by
  obtain ⟨hpc, hlt, ev, nextEv, s, evLen, hex, hres, rfl⟩ := process_cases h
  obtain ⟨rest, hnext, horder, hdrop⟩ := hinv.head hpc hlt hex
  have hns : m.pc ≠ .select := by rw [hpc]; nofun
  have hlen : ∀ e ∈ ev :: rest, e.len ≤ NAME_MAX + 1 := fun e he =>
    hinv.len_le hns e (horder ▸ List.mem_append_right _ he)
  have hnum := (hinv.accounts.1 hpc).numRead_eq
  have honce := (hinv.accounts.1 hpc).once
  have hsize := ev.size_pos
  cases hres with
  | single =>
    rw [ofResult_single]
    refine hinv.advance hpc (by omega) (honce.concat ?_ nofun) nofun horder
      (.inl ⟨drop_add_size hdrop, nofun⟩)
    exact hinv.follows hpc hlt hdrop rfl nofun
  | @pair n hn =>
    subst hn
    rw [ofResult_pair]
    obtain ⟨rest, rfl⟩ : ∃ rest', rest = n :: rest' := List.head?_eq_some_iff.mp hnext.symm
    refine hinv.advance hpc (by omega) (honce.concat ?_ nofun) nofun horder (.inl ⟨?_, nofun⟩)
    · exact hinv.follows hpc hlt hdrop rfl nofun
    · rw [← Nat.add_assoc]
      exact drop_add_size (drop_add_size hdrop)
  | rebuilt hb =>
    rw [ofResult_rebuilt (hlen ev (List.mem_cons_self ..)) fun n hn => hlen n ?_]
    · refine hinv.advance hpc (by decide) (honce.concat ?_ nofun) nofun horder
        (.inr ⟨⟨ev, rfl⟩, ?_, _, _, hb⟩)
      · exact hinv.follows hpc hlt hdrop rfl nofun
      · have := hinv.length_le hns
        omega
    · exact List.mem_cons_of_mem _ (List.mem_of_head? (hnext.symm.trans hn))
  | retry hmoved hnone hft =>
    obtain rfl : rest = [] := List.head?_eq_none_iff.mp (hnext.symm.trans hnone)
    have hbuf : (m.buf.drop m.evp).take (m.numRead - m.evp).toNat = ev.cells := by
      rw [List.take_of_length_le (by rw [List.length_drop]; omega), hdrop]
      simp
    have hlength : m.numRead - m.evp = ev.cells.length := by
      have := congrArg List.length hdrop
      rw [List.length_drop, encode_cons, encode_nil, List.append_nil] at this
      omega
    rw [Reader.advance, if_neg (by decide), hbuf, hlength]
    refine ⟨⟨nofun, fun _ => ⟨rfl, ⟨ev, ?_, rfl, ?_⟩, ?_⟩⟩, fun _ => ?_, fun _ => ?_, nofun, nofun,
      fun _ => rfl⟩
    · exact List.getLast?_concat
    · simpa [Handing.ofResult, Handing.consumed] using horder
    · refine honce.concat (hinv.follows hpc hlt hdrop rfl fun _ => hft) fun e he => ?_
      cases he
      exact hmoved
    · have := hinv.length_le hns
      change ev.cells.length ≤ INOTIFY_READ_BUF_LEN
      omega
    · exact hinv.len_le hns

theorem ReaderInv.primaryRead {m m' : Reader κ} {evs : List Event}
    (h : m.primaryRead evs = some m') : ReaderInv K m' := by
  rw [Reader.primaryRead, Option.ite_none_right_eq_some] at h
  obtain ⟨⟨-, ⟨-, hlen, -⟩, hfits⟩, h⟩ := h
  cases h
  refine ⟨⟨fun _ => ⟨rfl, ⟨evs, rfl, .inl ((pending_iff rfl).mpr rfl)⟩, ⟨.nil, nofun⟩⟩, nofun⟩,
    fun _ => hfits, fun _ => hlen, nofun, nofun, nofun⟩

theorem ReaderInv.secondaryRead {m m' : Reader κ} {evs : List Event} (hinv : ReaderInv K m)
    (h : m.secondaryRead evs = some m') : ReaderInv K m' := by
  rw [Reader.secondaryRead, Option.ite_none_right_eq_some] at h
  obtain ⟨⟨hpc, -, hlen, hfits⟩, h⟩ := h
  have hns : m.pc ≠ .select := by rw [hpc]; nofun
  obtain ⟨hnum, ⟨ev, hlast, hbuf, horder⟩, honce⟩ := hinv.accounts.2 hpc
  have htake : m.buf.take m.numRead.toNat = m.buf := List.take_of_length_le (by omega)
  rw [htake] at h
  cases h
  have hnum' : m.numRead + (encode evs).length = (m.buf ++ encode evs).length := by
    rw [List.length_append]
    omega
  refine ⟨⟨fun _ => ⟨hnum', ⟨ev :: evs, ?_, .inl ((pending_iff hnum').mpr ?_)⟩, honce⟩, nofun⟩,
    fun _ => ?_, fun _ e he => ?_, fun _ e he => ⟨hinv.firstTry hpc, evs, ?_⟩, fun _ e he => ?_, nofun⟩
  · rw [← horder, List.append_assoc, List.singleton_append]
  · rw [hbuf]
    rfl
  · change (m.buf ++ encode evs).length ≤ INOTIFY_READ_BUF_LEN
    omega
  · rcases List.mem_append.mp he with he | he
    · exact hinv.len_le hns e he
    · exact hlen e he
  · rw [hlast] at he
    cases he
    rw [hbuf]
    rfl
  · rw [hlast] at he
    cases he

/-- Every step but an interrupted secondary read keeps the accounts. -/
theorem ReaderInv.next {m m' : Reader κ} (hinv : ReaderInv K m) {a : ReaderStep κ}
    (ha : a ≠ .interrupted) (h : (reader K).next m a = some m') : ReaderInv K m' := by
  cases a with
  | primaryRead evs => exact .primaryRead h
  | process => exact hinv.process h
  | leave =>
    change m.leave = some m' at h
    rw [Reader.leave, Option.ite_none_right_eq_some] at h
    cases h.2
    exact .of_select rfl
  | secondaryRead evs => exact hinv.secondaryRead h
  | interrupted => exact absurd rfl ha
  | command input arg₀ =>
    change m.command K input arg₀ = some m' at h
    rw [Reader.command, Option.ite_none_right_eq_some] at h
    obtain ⟨hpc, h⟩ := h
    obtain ⟨s, -, rfl⟩ := Option.map_eq_some_iff.mp h
    exact .of_select hpc
  | kernel k =>
    cases h
    refine ⟨⟨fun hpc => ?_, fun hpc => ?_⟩, hinv.length_le, hinv.len_le, hinv.retry, hinv.rebuilt,
      hinv.firstTry⟩
    · obtain ⟨hnum, ⟨pending, horder, hpend⟩, honce⟩ := hinv.accounts.1 hpc
      refine ⟨hnum, ⟨pending, horder, hpend.imp (fun h => ?_) fun h => ?_⟩, honce⟩
      · exact ⟨h.drop_eq, h.examine_eq, h.le_of_nil⟩
      · exact ⟨h.rebuilt, h.le, h.built⟩
    · obtain ⟨hnum, hend, honce⟩ := hinv.accounts.2 hpc
      exact ⟨hnum, hend, honce⟩

/-- The result -1 of an interrupted read is counted as a byte less. -/
theorem not_accounts_interrupted {m m' : Reader κ} (hinv : ReaderInv K m)
    (h : m.interrupted = some m') : ¬Accounts K m' := by
  rw [Reader.interrupted, Option.ite_none_right_eq_some] at h
  obtain ⟨hpc, h⟩ := h
  cases h
  intro hacc
  have hnum : m.numRead + -1 = m.buf.length := (hacc.1 rfl).numRead_eq
  have := (hinv.accounts.2 hpc).numRead_eq
  omega

/-- Along every run of `processInotifyEvents`, whatever the reads return, `numRead` is the number of
valid bytes and the events read are handed to `processNextInotifyEvent` in order and once, but for a
retry at the end of the buffer and for the rest of the buffer after a rebuild, exactly if no
secondary read is interrupted. -/
theorem accounts_iff (K : Kernel κ) {m₀ m : Reader κ} (h0 : m₀.pc = .select)
    {as : List (ReaderStep κ)} (hr : (reader K).run m₀ as = some m) :
    (reader K).Always (Accounts K) m₀ as ↔ ∀ a ∈ as, a ≠ .interrupted := by
  refine Machine.always_iff (I := ReaderInv K) (fun _ h => h.accounts)
    (fun m a m' hm ha hn => hm.next ha hn) (fun m a m' hm ha hn => ?_) (.of_select h0) hr
  subst ha
  exact not_accounts_interrupted hm hn

/-- The reader of a program with one root, before the cache is built. -/
def oneReader : Reader Bool := ⟨oneRoot, 0, .select, [], 0, 0, true, [], []⟩

/-- Both events of a rename. -/
def movedFrom : Event := ⟨1, IN_MOVED_FROM ||| IN_ISDIR, 7, 16, ['a']⟩

def movedTo : Event := ⟨1, IN_MOVED_TO ||| IN_ISDIR, 7, 16, ['b']⟩

/-- The two events of a rename come with different reads. -/
theorem accounts_iff_rename : (reader oneDir).Always (Accounts oneDir) oneReader
    [.command ['0', '\n'] [], .primaryRead [movedFrom], .process, .secondaryRead [movedTo], .process,
      .leave] := by
  have hrun : ((reader oneDir).run oneReader [.command ['0', '\n'] [], .primaryRead [movedFrom],
      .process, .secondaryRead [movedTo], .process, .leave]).isSome = true := by decide +kernel
  obtain ⟨m, hm⟩ := Option.isSome_iff_exists.mp hrun
  exact (accounts_iff oneDir rfl hm).mpr (by simp)

/-- The secondary read is interrupted. -/
theorem not_accounts : ¬∀ as m, (reader oneDir).run oneReader as = some m →
    (reader oneDir).Always (Accounts oneDir) oneReader as := by
  intro h
  have hrun : ((reader oneDir).run oneReader [.command ['0', '\n'] [], .primaryRead [movedFrom],
      .process, .interrupted]).any
        (fun m => m.pc = .loop ∧ m.numRead ≠ m.buf.length) = true := by decide +kernel
  obtain ⟨m, hm, hbad⟩ := (Option.any_eq_true _ _).mp hrun
  rw [decide_eq_true_iff] at hbad
  exact hbad.2 (((h _ m hm).last hm).1 hbad.1).numRead_eq

end Tlpi.InotifyDtree
