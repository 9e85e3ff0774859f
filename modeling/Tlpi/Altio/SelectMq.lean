import Mathlib.Data.Fin.VecNotation
import Tlpi.Lib.CBuf
import Tlpi.Lib.LittleEndian
import Tlpi.Lib.Machine

/-!
# Monitoring message queues with `select` (`altio/select_mq.c`)

One child for each queue copies every message to a common pipe, with a header before it. The parent
waits for the terminal and the pipe; it reads the header and the body of a message in two steps.
The pipe is a queue of bytes. A write of at most `PIPE_BUF` bytes is atomic and waits for room; a
read takes what is there, up to the size asked for, and waits while the pipe is empty unless that
size is 0. The parent keeps the write end open, so the pipe has no end of file.
-/

namespace Tlpi.SelectMq

open Function

variable {N : Nat}

def MAX_MTEXT : Nat := 400

/-- `offsetof(struct pbuf, mtext)` -/
def HDR_SIZE : Nat := 16

def PIPE_BUF : Nat := 4096

/-- The bytes that a pipe holds. -/
def PIPE_SIZE : Nat := 65536

/-- A message, as the kernel delivers it from the queue `msqid`. -/
structure Msg where
  msqid : BitVec 32
  mtype : BitVec 64
  mtext : List UInt8
  deriving DecidableEq

/-- The bytes of a `struct pbuf` that `childMon` writes. -/
def Msg.pbuf (m : Msg) : List UInt8 :=
  leBytes 4 m.msqid.toNat ++ leBytes 4 m.mtext.length ++ leBytes 8 m.mtype.toNat ++ m.mtext

/-- What the parent prints about a message. -/
structure Report where
  msqid : Int
  mtype : Int
  length : Int
  body : List UInt8
  deriving DecidableEq

/-- The report of a message with its own queue, type, length and body. -/
def Msg.report (m : Msg) : Report := ⟨m.msqid.toInt, m.mtype.toInt, m.mtext.length, m.mtext⟩

/-- The parent's `pmsg`: the bytes of its header and of `mtext`. -/
structure Pbuf where
  header : List UInt8
  mtext : List UInt8
  deriving DecidableEq

namespace Pbuf

def msqid (b : Pbuf) : BitVec 32 := .ofNat 32 (leNat (b.header.take 4))

def len (b : Pbuf) : BitVec 32 := .ofNat 32 (leNat ((b.header.drop 4).take 4))

def mtype (b : Pbuf) : BitVec 64 := .ofNat 64 (leNat ((b.header.drop 8).take 8))

/-- `pmsg.len` as the size that `read` gets. -/
def size (b : Pbuf) : Nat := (b.len.signExtend 64).toNat

/-- `printf("MQ %d: type=%ld length=%d <%.*s>\n", ...)`: the string ends at a null byte, or after
`len` bytes. -/
def report (b : Pbuf) : Report where
  msqid := b.msqid.toInt
  mtype := b.mtype.toInt
  length := b.len.toInt
  body := cstr (b.mtext.take b.size)

end Pbuf

/-- Where the parent is. -/
inductive Pc
  | select
  /-- `read(STDIN_FILENO, ...)`, with the pipe ready or not. -/
  | stdin (pipe : Bool)
  /-- `read(pfd[0], &pmsg, offsetof(struct pbuf, mtext))` -/
  | header
  /-- `read(pfd[0], &pmsg.mtext, pmsg.len)` -/
  | body
  /-- Terminated by `errExit` or `fatal`. -/
  | failed (msg : String)
  deriving DecidableEq

structure State (N : Nat) where
  /-- The message that a child has received and not yet written. -/
  child : Fin N → Option Msg
  pipe : List UInt8
  pc : Pc
  pmsg : Pbuf
  /-- The messages written to the pipe, in pipe order. -/
  sent : List Msg
  /-- The messages that the parent has reported. -/
  reports : List Report

inductive Label (N : Nat)
  /-- `msgrcv` in child `i`. -/
  | msgrcv (i : Fin N) (mtype : BitVec 64) (mtext : List UInt8)
  /-- `write` in child `i`. -/
  | write (i : Fin N)
  /-- `select` returns with these descriptors ready, or fails. -/
  | select (stdin pipe : Bool)
  | selectFails
  /-- The terminal's `read` returns, or fails. -/
  | readStdin (ok : Bool)
  | readHeader
  | readBody
  deriving DecidableEq

/-- `read(pfd[0], ...)` of up to `n` bytes: the bytes read and those that stay in the pipe. -/
def readPipe (pipe : List UInt8) (n : Nat) : Option (List UInt8 × List UInt8) :=
  if n ≠ 0 ∧ pipe = [] then none else some (pipe.take n, pipe.drop n)

/-- One step of a child or of the parent; `msqid i` is the queue of child `i`. -/
def step (msqid : Fin N → BitVec 32) (s : State N) : Label N → Option (State N)
  | .msgrcv i mtype mtext =>
    if s.child i = none ∧ mtext.length ≤ MAX_MTEXT then
      some { s with child := update s.child i (some ⟨msqid i, mtype, mtext⟩) }
    else none
  | .write i =>
    match s.child i with
    | none => none
    | some m =>
      if s.pipe.length + m.pbuf.length ≤ PIPE_SIZE then
        some { s with
          child := update s.child i none
          pipe := s.pipe ++ m.pbuf
          sent := s.sent ++ [m] }
      else none
  | .select stdin pipe =>
    if s.pc = .select ∧ (stdin ∨ pipe) ∧ (pipe → s.pipe ≠ []) then
      some { s with pc := if stdin then .stdin pipe else .header }
    else none
  | .selectFails => if s.pc = .select then some { s with pc := .failed "select" } else none
  | .readStdin ok =>
    match s.pc with
    | .stdin pipe =>
      if ok then some { s with pc := if pipe then .header else .select }
      else some { s with pc := .failed "read stdin" }
    | _ => none
  | .readHeader =>
    if s.pc = .header then
      (readPipe s.pipe HDR_SIZE).map fun (got, pipe) =>
        if got = [] then { s with pc := .failed "EOF on pipe" }
        else { s with
          pipe := pipe
          pmsg := { s.pmsg with header := fill s.pmsg.header got }
          pc := .body }
    else none
  | .readBody =>
    if s.pc = .body then
      (readPipe s.pipe s.pmsg.size).map fun (got, pipe) =>
        if got = [] then { s with pc := .failed "EOF on pipe" }
        else
          let pmsg := { s.pmsg with mtext := fill s.pmsg.mtext got }
          { s with
            pipe := pipe
            pmsg := pmsg
            pc := .select
            reports := s.reports ++ [pmsg.report] }
    else none

def machine (msqid : Fin N → BitVec 32) : Machine (State N) (Label N) := ⟨step msqid⟩

/-- The parent enters its loop, with anything in `pmsg`, and no message has arrived. -/
def State.init (pmsg : Pbuf) : State N := ⟨fun _ => none, [], .select, pmsg, [], []⟩

/-! ## What the header says -/

/-- A message that the parent prints in full. -/
structure Msg.Plain (m : Msg) : Prop where
  ne_nil : m.mtext ≠ []
  no_null : 0 ∉ m.mtext
  length_le : m.mtext.length ≤ MAX_MTEXT

/-- The header of a message. -/
def Msg.header (m : Msg) : List UInt8 :=
  leBytes 4 m.msqid.toNat ++ leBytes 4 m.mtext.length ++ leBytes 8 m.mtype.toNat

theorem Msg.pbuf_eq (m : Msg) : m.pbuf = m.header ++ m.mtext := rfl

@[simp] theorem Msg.length_header (m : Msg) : m.header.length = HDR_SIZE := by
  simp [Msg.header, HDR_SIZE]

/-- A child writes its messages atomically. -/
theorem Msg.length_pbuf_le {m : Msg} (h : m.mtext.length ≤ MAX_MTEXT) :
    m.pbuf.length ≤ PIPE_BUF := by
  rw [m.pbuf_eq, List.length_append, m.length_header]
  simp only [HDR_SIZE, MAX_MTEXT, PIPE_BUF] at h ⊢
  omega

/-- The header that the parent holds is that of `m`. -/
structure Pbuf.Of (b : Pbuf) (m : Msg) : Prop where
  msqid : b.msqid = m.msqid
  mtype : b.mtype = m.mtype
  len : b.len = BitVec.ofNat 32 m.mtext.length

theorem Pbuf.of_fill (b : Pbuf) (m : Msg) (h : m.mtext.length ≤ MAX_MTEXT) :
    Pbuf.Of { b with header := fill b.header m.header } m := by
  have hlen : m.mtext.length < 256 ^ 4 := by
    simp only [MAX_MTEXT] at h
    omega
  have hfill : fill b.header m.header = leBytes 4 m.msqid.toNat ++ (leBytes 4 m.mtext.length ++
      (leBytes 8 m.mtype.toNat ++ b.header.drop m.header.length)) := by
    simp [fill, Msg.header]
  refine ⟨?_, ?_, ?_⟩
  · simp only [Pbuf.msqid, hfill, List.take_left' (length_leBytes 4 _)]
    exact ofNat_leNat_leBytes (n := 4) m.msqid
  · have hdrop : (fill b.header m.header).drop 8 =
        leBytes 8 m.mtype.toNat ++ b.header.drop m.header.length := by
      rw [hfill, ← List.append_assoc, List.drop_left' (by simp)]
    simp only [Pbuf.mtype, hdrop, List.take_left' (length_leBytes 8 _)]
    exact ofNat_leNat_leBytes (n := 8) m.mtype
  · simp only [Pbuf.len, hfill, List.drop_left' (length_leBytes 4 _),
      List.take_left' (length_leBytes 4 _), leNat_leBytes hlen]

theorem Pbuf.Of.size_eq {b : Pbuf} {m : Msg} (h : b.Of m) (hm : m.mtext.length ≤ MAX_MTEXT) :
    b.size = m.mtext.length := by
  simp only [MAX_MTEXT] at hm
  have hmsb : (BitVec.ofNat 32 m.mtext.length).msb = false := by
    rw [BitVec.msb_eq_false_iff_two_mul_lt, BitVec.toNat_ofNat]
    omega
  rw [Pbuf.size, h.len, BitVec.signExtend_eq_setWidth_of_msb_false hmsb, BitVec.toNat_setWidth,
    BitVec.toNat_ofNat]
  omega

/-- The report of a message that is held in full. -/
theorem Pbuf.Of.report_eq {b : Pbuf} {m : Msg} (h : b.Of m) (hm : m.Plain) :
    Pbuf.report { b with mtext := fill b.mtext m.mtext } = m.report := by
  have hsize : Pbuf.size { b with mtext := fill b.mtext m.mtext } = m.mtext.length :=
    h.size_eq hm.length_le
  have hbody : cstr ((fill b.mtext m.mtext).take m.mtext.length) = m.mtext := by
    rw [fill, List.take_left, cstr_eq_self hm.no_null]
  have hlen : (BitVec.ofNat 32 m.mtext.length).toInt = m.mtext.length := by
    have hle := hm.length_le
    simp only [MAX_MTEXT] at hle
    rw [BitVec.toInt_ofNat']
    exact Int.bmod_eq_of_le (by omega) (by omega)
  simp only [Pbuf.report, hsize, hbody, Msg.report, Report.mk.injEq, and_true]
  exact ⟨congrArg BitVec.toInt h.msqid, congrArg BitVec.toInt h.mtype,
    (congrArg BitVec.toInt h.len).trans hlen⟩

/-! ## The stream of messages -/

/-- The bytes of the messages that the parent has not begun to read. -/
def stream (ms : List Msg) : List UInt8 := ms.flatMap Msg.pbuf

/-- The pipe holds the messages `ms` that are not yet reported, less what the parent has read of
the first one. -/
def Holds (ms : List Msg) (s : State N) : Prop :=
  match s.pc with
  | .select | .stdin false => s.pipe = stream ms
  | .stdin true | .header => s.pipe = stream ms ∧ ms ≠ []
  | .body => ∃ m rest, ms = m :: rest ∧ s.pipe = m.mtext ++ stream rest ∧ s.pmsg.Of m
  | .failed msg => msg ≠ "EOF on pipe"

structure Inv (s : State N) : Prop where
  child : ∀ i m, s.child i = some m → m.Plain
  flow : ∃ done ms, s.sent = done ++ ms ∧ s.reports = done.map Msg.report ∧ (∀ m ∈ ms, m.Plain) ∧
    Holds ms s

/-- A message that a child receives has a text, and no null byte in it. -/
def TextOnly (_ : State N) : Label N → Prop
  | .msgrcv _ _ mtext => mtext ≠ [] ∧ 0 ∉ mtext
  | _ => True

instance (s : State N) (a : Label N) : Decidable (TextOnly s a) :=
  match a with
  | .msgrcv _ _ _ => inferInstanceAs (Decidable (_ ∧ _))
  | .write _ | .select _ _ | .selectFails | .readStdin _ | .readHeader | .readBody => .isTrue trivial

theorem stream_append (ms : List Msg) (m : Msg) : stream (ms ++ [m]) = stream ms ++ m.pbuf := by
  simp [stream]

theorem stream_cons (m : Msg) (ms : List Msg) :
    stream (m :: ms) = m.header ++ (m.mtext ++ stream ms) := by
  simp [stream, Msg.pbuf_eq]

theorem stream_eq_nil {ms : List Msg} : stream ms = [] ↔ ms = [] := by
  cases ms with
  | nil => simp [stream]
  | cons m ms =>
    have hne : m.header ≠ [] := List.ne_nil_of_length_pos (by simp [HDR_SIZE])
    simp [stream_cons, hne]

section Steps

variable {msqid : Fin N → BitVec 32} {s t : State N}

theorem inv_init (pmsg : Pbuf) : Inv (State.init (N := N) pmsg) :=
  ⟨nofun, [], [], rfl, rfl, nofun, rfl⟩

theorem Holds.write {ms : List Msg} (h : Holds ms s) (m : Msg) (child : Fin N → Option Msg) :
    Holds (ms ++ [m]) { s with
      child := child
      pipe := s.pipe ++ m.pbuf
      sent := s.sent ++ [m] } := by
  unfold Holds at h ⊢
  cases hpc : s.pc with
  | select =>
    simp only [hpc] at h ⊢
    rw [h, stream_append]
  | stdin pipe =>
    cases pipe with
    | false =>
      simp only [hpc] at h ⊢
      rw [h, stream_append]
    | true =>
      simp only [hpc] at h ⊢
      exact ⟨by rw [h.1, stream_append], by simp⟩
  | header =>
    simp only [hpc] at h ⊢
    exact ⟨by rw [h.1, stream_append], by simp⟩
  | body =>
    simp only [hpc] at h ⊢
    obtain ⟨m', rest, rfl, hp, ho⟩ := h
    exact ⟨m', rest ++ [m], rfl, by rw [hp, stream_append, List.append_assoc], ho⟩
  | failed msg =>
    simp only [hpc] at h ⊢
    exact h

/-- The parent moves on to `pc`, where the pipe still holds what it should. -/
theorem Inv.goto (h : Inv s) (pc : Pc) (hpc : ∀ ms, Holds ms s → Holds ms { s with pc := pc }) :
    Inv { s with pc := pc } := by
  obtain ⟨hc, done, ms, hs, hr, hp, hh⟩ := h
  exact ⟨hc, done, ms, hs, hr, hp, hpc ms hh⟩

theorem readPipe_append {a b : List UInt8} (h : a ≠ []) :
    readPipe (a ++ b) a.length = some (a, b) := by
  simp [readPipe, h]

theorem inv_write {i : Fin N} (h : Inv s) (hn : step msqid s (.write i) = some t) : Inv t := by
  cases hi : s.child i with
  | none => simp [step, hi] at hn
  | some m =>
    simp only [step, hi, Option.ite_none_right_eq_some, Option.some.injEq] at hn
    obtain ⟨-, rfl⟩ := hn
    obtain ⟨done, ms, hs, hr, hp, hh⟩ := h.flow
    refine ⟨fun j m' hj => ?_, done, ms ++ [m], by simp [hs], hr, fun m' hm' => ?_, hh.write m _⟩
    · rcases eq_or_ne j i with rfl | hji
      · simp at hj
      · exact h.child j m' ((update_of_ne hji _ s.child).symm.trans hj)
    · rcases List.mem_append.mp hm' with hm' | hm'
      · exact hp m' hm'
      · exact List.mem_singleton.mp hm' ▸ h.child i m hi

theorem inv_select {stdin pipe : Bool} (h : Inv s)
    (hn : step msqid s (.select stdin pipe) = some t) : Inv t := by
  simp only [step, Option.ite_none_right_eq_some, Option.some.injEq] at hn
  obtain ⟨⟨hpc, hor, hne⟩, rfl⟩ := hn
  refine h.goto _ fun ms hh => ?_
  simp only [Holds, hpc] at hh
  have hms : pipe = true → ms ≠ [] := fun hp hm => hne hp (hh.trans (stream_eq_nil.mpr hm))
  cases stdin with
  | true =>
    cases pipe with
    | true => exact ⟨hh, hms rfl⟩
    | false => exact hh
  | false => exact ⟨hh, hms (by simpa using hor)⟩

theorem inv_readHeader (h : Inv s) (hn : step msqid s .readHeader = some t) : Inv t := by
  simp only [step, Option.ite_none_right_eq_some, Option.map_eq_some_iff] at hn
  obtain ⟨hpc, ⟨got, pipe⟩, hread, rfl⟩ := hn
  obtain ⟨hc, done, ms, hs, hr, hp, hh⟩ := h
  simp only [Holds, hpc] at hh
  obtain ⟨hpipe, hne⟩ := hh
  obtain ⟨m, rest, rfl⟩ := List.exists_cons_of_ne_nil hne
  have hhdr : m.header ≠ [] := List.ne_nil_of_length_pos (by simp [HDR_SIZE])
  rw [hpipe, stream_cons, ← m.length_header, readPipe_append hhdr] at hread
  cases hread
  simp only [hhdr, if_false]
  exact ⟨hc, done, m :: rest, hs, hr, hp, m, rest, rfl, rfl,
    Pbuf.of_fill s.pmsg m (hp m (by simp)).length_le⟩

theorem inv_readBody (h : Inv s) (hn : step msqid s .readBody = some t) : Inv t := by
  simp only [step, Option.ite_none_right_eq_some, Option.map_eq_some_iff] at hn
  obtain ⟨hpc, ⟨got, pipe⟩, hread, rfl⟩ := hn
  obtain ⟨hc, done, ms, hs, hr, hp, hh⟩ := h
  simp only [Holds, hpc] at hh
  obtain ⟨m, rest, rfl, hpipe, hof⟩ := hh
  have hm : m.Plain := hp m (by simp)
  rw [hpipe, hof.size_eq hm.length_le, readPipe_append hm.ne_nil] at hread
  cases hread
  simp only [hm.ne_nil, if_false]
  refine ⟨hc, done ++ [m], rest, by simp [hs], ?_, fun m' hm' => hp m' (by simp [hm']), rfl⟩
  simp [hr, hof.report_eq hm]

theorem inv_step {a : Label N} (h : Inv s) (hok : TextOnly s a) (hn : step msqid s a = some t) :
    Inv t := by
  cases a with
  | msgrcv i mtype mtext =>
    simp only [step, Option.ite_none_right_eq_some, Option.some.injEq] at hn
    obtain ⟨⟨-, hlen⟩, rfl⟩ := hn
    refine ⟨fun j m hj => ?_, h.flow⟩
    rcases eq_or_ne j i with rfl | hji
    · cases (update_self j _ s.child).symm.trans hj
      exact ⟨hok.1, hok.2, hlen⟩
    · exact h.child j m ((update_of_ne hji _ s.child).symm.trans hj)
  | write i => exact inv_write h hn
  | select stdin pipe => exact inv_select h hn
  | selectFails =>
    simp only [step, Option.ite_none_right_eq_some, Option.some.injEq] at hn
    obtain ⟨-, rfl⟩ := hn
    exact h.goto _ fun _ _ => by simp [Holds]
  | readStdin ok =>
    cases hpc : s.pc with
    | stdin pipe =>
      simp only [step, hpc] at hn
      split at hn <;> cases hn
      · refine h.goto _ fun ms hh => ?_
        cases pipe with
        | true => simpa [Holds, hpc] using hh
        | false => simpa [Holds, hpc] using hh
      · exact h.goto _ fun _ _ => by simp [Holds]
    | select | header | body | failed msg => simp [step, hpc] at hn
  | readHeader => exact inv_readHeader h hn
  | readBody => exact inv_readBody h hn

theorem inv_of_reachable {pmsg : Pbuf}
    (h : (machine msqid).ReachableBy TextOnly (State.init pmsg) s) : Inv s :=
  h.invariant (inv_init pmsg) fun _ _ _ => inv_step

/-! ## Nothing is lost -/

/-- The parent reports the messages written, and keeps running. -/
structure Lossless (msqid : Fin N → BitVec 32) (s : State N) : Prop where
  /-- The reports are those of the messages written, in pipe order. -/
  prefixed : s.reports <+: s.sent.map Msg.report
  /-- With the pipe empty, all are reported. -/
  drained : s.pc = .select → s.pipe = [] → s.reports = s.sent.map Msg.report
  /-- The parent never waits for the rest of a message. -/
  header_enabled : s.pc = .header → (step msqid s .readHeader).isSome
  body_enabled : s.pc = .body → (step msqid s .readBody).isSome
  /-- No message ends the program. -/
  alive : s.pc ≠ .failed "EOF on pipe"

theorem lossless_of_textOnly {pmsg : Pbuf}
    (h : (machine msqid).ReachableBy TextOnly (State.init pmsg) s) : Lossless msqid s := by
  obtain ⟨-, done, ms, hs, hr, hp, hh⟩ := inv_of_reachable h
  refine ⟨?_, fun hpc hpipe => ?_, fun hpc => ?_, fun hpc => ?_, fun hpc => ?_⟩
  · rw [hs, hr, List.map_append]
    exact List.prefix_append _ _
  · simp only [Holds, hpc] at hh
    rw [hpipe] at hh
    rw [hs, hr, stream_eq_nil.mp hh.symm, List.append_nil]
  · simp only [Holds, hpc] at hh
    have hne : s.pipe ≠ [] := fun h0 => hh.2 (stream_eq_nil.mp (hh.1.symm.trans h0))
    simp [step, hpc, readPipe, hne]
  · simp only [Holds, hpc] at hh
    obtain ⟨m, rest, rfl, hpipe, -⟩ := hh
    have hne : s.pipe ≠ [] := by simp [hpipe, (hp m (by simp)).ne_nil]
    simp [step, hpc, readPipe, hne]
  · simp [Holds, hpc] at hh

end Steps

/-- The parent's `pmsg` with all bytes 0. -/
def Pbuf.zero : Pbuf := ⟨List.replicate HDR_SIZE 0, List.replicate MAX_MTEXT 0⟩

/-- Two children write before the parent has read the first body. -/
theorem lossless_two_children : ∃ s, (machine ![7, 9]).ReachableBy TextOnly
    (State.init Pbuf.zero) s ∧ s.reports = [⟨9, 2, 2, [104, 105]⟩, ⟨7, 1, 1, [111]⟩] ∧
      Lossless ![7, 9] s := by
  have hr : ∃ s, (machine ![7, 9]).ReachableBy TextOnly (State.init Pbuf.zero) s ∧
      s.reports = [⟨9, 2, 2, [104, 105]⟩, ⟨7, 1, 1, [111]⟩] :=
    Machine.ReachableBy.exists_of_runBy
      [.msgrcv 0 1 [111], .msgrcv 1 2 [104, 105], .write 1, .select false true, .readHeader,
        .write 0, .readBody, .select true true, .readStdin true, .readHeader, .readBody] .refl
      ⟨_, rfl, by decide⟩
  obtain ⟨s, hs, hrep⟩ := hr
  exact ⟨s, hs, hrep, lossless_of_textOnly hs⟩

/-- A message without a text ends the program. -/
theorem not_lossless_empty : ∃ s, (machine ![7]).Reachable (State.init Pbuf.zero) s ∧
    ¬Lossless ![7] s :=
  Machine.Reachable.exists_of_run
    [.msgrcv 0 1 [], .write 0, .select false true, .readHeader, .readBody] .refl
    ⟨_, rfl, fun h => h.alive rfl⟩

end Tlpi.SelectMq
