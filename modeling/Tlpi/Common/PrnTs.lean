import Tlpi.Lib.CBuf
import Tlpi.Lib.Decimal

/-!
# Lines with a timestamp (`PrnTs.cpp`)

`PrnTs` makes a line in `buf`: the elapsed part is stored at the offset at which the timestamp ends,
but the timestamp is in a buffer of its own and is not copied, so that `buf` still begins with a zero
byte and the message is stored at its start. A store outside of a buffer is `none`.
-/

namespace Tlpi.Prn

open Tlpi.Num

/-- What `localtime_r` makes of the time, in its ranges (a leap second counts), and the microseconds
that `gettimeofday` returns. -/
structure TimeOfDay where
  tmYear : Int
  tmMon : Nat
  tmMday : Nat
  tmHour : Nat
  tmMin : Nat
  tmSec : Nat
  tvUsec : Nat
  hour_lt : tmHour < 24
  min_lt : tmMin < 60
  sec_le : tmSec ≤ 60
  usec_lt : tvUsec < 1000000

def bytes (s : CString) : List UInt8 := s.map fun c => c.toNat.toUInt8

/-- `"%04d-%02d-%02d "`. -/
def dateText (t : TimeOfDay) : List UInt8 :=
  bytes (fmtZeros 4 (t.tmYear + 1900) ++ '-' :: fmtZeros 2 (t.tmMon + 1) ++
    '-' :: fmtZeros 2 t.tmMday ++ [' '])

/-- `"%02d:%02d:%02d.%03d]"`. -/
def timeText (t : TimeOfDay) : List UInt8 :=
  bytes (fmtZeros 2 t.tmHour ++ ':' :: fmtZeros 2 t.tmMin ++ ':' :: fmtZeros 2 t.tmSec ++
    '.' :: fmtZeros 3 ((t.tvUsec / 1000 : Nat) : Int) ++ [']'])

/-- `now_timestr` for a buffer of `bufchars` bytes; there is no time if `gettimeofday` or
`localtime_r` fails. -/
def nowTimestr (buf : Mem) (bufchars : Nat) (ymd : Bool) (time : Option TimeOfDay) : Option Mem :=
  if bufchars = 0 then some buf
  else do
    let buf ← buf.storeIn bufchars 0 [0]
    match time with
    | none => return buf
    | some t =>
      let buf ← buf.storeIn bufchars 0 [91]
      let buf ← buf.storeIn bufchars 1 [0]
      let buf ← buf.storeIn bufchars (bufchars - 1) [0]
      let buf ← if ymd then do
          let pfxlen ← buf.strlen bufchars
          buf.snprintf bufchars pfxlen (bufchars - pfxlen) (dateText t)
        else some buf
      let pfxlen ← buf.strlen bufchars
      buf.snprintf bufchars pfxlen (bufchars - pfxlen) (timeText t)

/-- `"(+%3u.%03us) "`, with `int` arguments taken as `unsigned`. -/
def elapsedText (msec : Int) : List UInt8 :=
  bytes ('(' :: '+' :: fmtNat 3 ' ' (msec.tdiv 1000 % 2 ^ 32).toNat ++
    '.' :: fmtNat 3 '0' (msec.tmod 1000 % 2 ^ 32).toNat ++ ['s', ')', ' '])

/-- What a call prints: the line of a single dot after more than a second, and the line itself. -/
structure Output where
  dot : Bool
  line : List UInt8
  deriving DecidableEq, Repr

/-- `PrnTs` at `now_msec`, with the time of the call before in `s_prev_msec`; `msg` is the formatted
message. -/
def prnTs (sPrevMsec nowMsec : Int) (time : Option TimeOfDay) (msg : List UInt8) :
    Option Output := do
  let buf : Mem := fun _ => 0
  let deltaMsec := wrap 32 (nowMsec - sPrevMsec)
  let timebuf ← nowTimestr (fun _ => 0) 40 false time
  let prefixlen ← timebuf.strlen 40
  let buf ← buf.snprintf 2000 prefixlen (40 - prefixlen) (elapsedText deltaMsec)
  let prefixlen ← buf.strlen 2000
  let buf ← buf.snprintf 2000 prefixlen (2000 - prefixlen - 1) msg
  let slen ← buf.strlen 2000
  let buf ← buf.storeIn 2000 slen [10]
  let buf ← buf.storeIn 2000 (slen + 1) [0]
  return ⟨1000 ≤ deltaMsec, cstr (buf.load 0 2000)⟩

/-- `[HH:MM:SS.mmm]`. -/
def timestr (t : TimeOfDay) : List UInt8 := 91 :: timeText t

/-- The line that is promised: the timestamp, the elapsed time and the message, cut where the line
with its newline and its terminator would not fit into 2000 bytes. -/
def promised (t : TimeOfDay) (elapsed : Nat) (msg : List UInt8) : List UInt8 :=
  timestr t ++ elapsedText elapsed ++
    msg.take (1998 - (timestr t ++ elapsedText elapsed).length) ++ [10]

/-- The promise: no store falls outside of a buffer, and the promised line is printed. -/
def Promise (sPrevMsec : Int) (elapsed : Nat) (t : TimeOfDay) (msg : List UInt8) : Prop :=
  ∃ out, prnTs sPrevMsec (sPrevMsec + elapsed) (some t) msg = some out ∧
    out.line = promised t elapsed msg

variable {s : CString} {t : TimeOfDay} {msg : List UInt8}

/-! ### The timestamp -/

theorem length_timeText (t : TimeOfDay) : (timeText t).length = 13 := by
  have hhour : t.tmHour < 10 ^ 2 := Nat.lt_trans t.hour_lt (by decide)
  have hmin : t.tmMin < 10 ^ 2 := Nat.lt_trans t.min_lt (by decide)
  have hsec : t.tmSec < 10 ^ 2 := Nat.lt_of_le_of_lt t.sec_le (by decide)
  have hmsec : t.tvUsec / 1000 < 10 ^ 3 := by
    have := t.usec_lt
    omega
  simp only [timeText, bytes, fmtZeros_natCast, List.length_map, List.length_append,
    List.length_cons, List.length_nil, length_fmtNat '0' (by decide) hhour,
    length_fmtNat '0' (by decide) hmin, length_fmtNat '0' (by decide) hsec,
    length_fmtNat '0' (by decide) hmsec]

theorem zero_notMem_bytes (h : ∀ c ∈ s, c.isDigit ∨ c ∈ ['(', '+', ' ', '.', 's', ')', ':', ']']) :
    0 ∉ bytes s := by
  intro hmem
  obtain ⟨c, hc, heq⟩ := List.mem_map.mp hmem
  have hnat : c.toNat % 256 = 0 := by
    have := congrArg UInt8.toNat heq
    simpa using this
  rcases h c hc with hd | hd
  · rw [Char.isDigit_iff_toNat, show '0'.toNat = 48 from rfl, show '9'.toNat = 57 from rfl] at hd
    omega
  · revert hnat
    have : ∀ c ∈ ['(', '+', ' ', '.', 's', ')', ':', ']'], c.toNat % 256 ≠ 0 := by simp
    exact this c hd

theorem isDigit_of_mem_fmtNat {w n : Nat} {c : Char} (h : c ∈ fmtNat w '0' n) : c.isDigit := by
  rcases mem_fmtNat h with h | rfl
  · exact h
  · rfl

theorem zero_notMem_timeText (t : TimeOfDay) : 0 ∉ timeText t := by
  refine zero_notMem_bytes fun c hc => ?_
  simp only [fmtZeros_natCast, List.mem_append, List.mem_cons, List.not_mem_nil, or_false] at hc ⊢
  grind [isDigit_of_mem_fmtNat]

theorem zero_notMem_elapsedText (msec : Int) : 0 ∉ elapsedText msec := by
  refine zero_notMem_bytes fun c hc => ?_
  simp only [List.mem_append, List.mem_cons, List.not_mem_nil, or_false] at hc ⊢
  grind [isDigit_of_mem_fmtNat, mem_fmtNat]

theorem length_elapsedText_le (msec : Int) : (elapsedText msec).length ≤ 26 := by
  have hfmt (fill : Char) {n : Nat} (h : n < 2 ^ 32) : (fmtNat 3 fill n).length ≤ 10 := by
    have hle := (Nat.length_toDigits_le_iff (b := 10) (by decide) (by decide : 0 < 10)).mpr
      (by omega : n < 10 ^ 10)
    rw [fmtNat, List.leftpad, List.length_append, List.length_replicate]
    omega
  have hsec := hfmt ' ' (by omega : (msec.tdiv 1000 % 2 ^ 32).toNat < 2 ^ 32)
  have hmsec := hfmt '0' (by omega : (msec.tmod 1000 % 2 ^ 32).toNat < 2 ^ 32)
  simp only [elapsedText, bytes, List.length_map, List.length_append, List.length_cons,
    List.length_nil]
  omega

/-- The timestamp is left in its buffer. -/
theorem nowTimestr_eq (buf : Mem) (t : TimeOfDay) :
    ∃ timebuf, nowTimestr buf 40 false (some t) = some timebuf ∧
      timebuf.load 0 15 = timestr t ++ [0] := by
  have hopen (m : Mem) : (((m.store 0 [91]).store 1 [0]).store 39 [0]).load 0 2 = [91, 0] := by
    rw [Mem.load_store_of_disjoint (.inl (by decide))]
    have hstore : (m.store 0 [91]).store 1 [0] = m.store 0 [91, 0] := m.store_store 0 [91] [0]
    rw [hstore]
    exact m.load_store 0 [91, 0]
  have htake : (timeText t).take (39 - 1) = timeText t :=
    List.take_of_length_le (by rw [length_timeText]; decide)
  refine ⟨((((buf.store 0 [0]).store 0 [91]).store 1 [0]).store 39 [0]).store 1 (timeText t ++ [0]),
    ?_, ?_⟩
  · have hstore (m : Mem) (addr : Nat) (b : UInt8) (h : addr < 40) :
        m.storeIn 40 addr [b] = some (m.store addr [b]) := Mem.storeIn_eq_some h
    have hlen : Mem.strlen 40 ((((buf.store 0 [0]).store 0 [91]).store 1 [0]).store 39 [0]) = some 1 :=
      (Mem.cstr_load 40 (s := [91]) (hopen (buf.store 0 [0])) (by decide)).2
    rw [nowTimestr, if_neg (by decide)]
    simp only [Option.bind_eq_bind, hstore, Nat.reduceLT, Nat.reduceSub, Option.bind_some, hlen,
      Bool.false_eq_true, if_false]
    exact (Mem.snprintf_eq_some 40 1 39 (by decide) (by decide)).trans (by rw [htake])
  · have hsplit (m : Mem) : m.load 0 15 = m.load 0 1 ++ m.load 1 (timeText t ++ [0]).length := by
      rw [List.length_append, length_timeText]
      exact m.load_add 0 1 14
    rw [hsplit, Mem.load_store, Mem.load_store_of_disjoint (.inl (by decide)),
      Mem.load_take _ 0 (by decide : 1 ≤ 2), hopen]
    rfl

/-! ### The line -/

/-- A newline in place of the terminator. -/
theorem load_newline {mem : Mem} {s : List UInt8} (h : mem.load 0 (s.length + 1) = s ++ [0]) :
    ((mem.store (cstr s).length [10]).store ((cstr s).length + 1) [0]).load 0
      ((cstr s ++ [10]).length + 1) = cstr s ++ [10] ++ [0] := by
  have hpre : cstr s <+: s ++ [0] := (List.takeWhile_prefix _).trans (List.prefix_append s [0])
  have hstore : (mem.store (cstr s).length [10]).store ((cstr s).length + 1) [0] =
      mem.store (cstr s).length [10, 0] := mem.store_store (cstr s).length [10] [0]
  have hlen : (cstr s ++ [10]).length + 1 = (cstr s).length + ([10, 0] : List UInt8).length := by simp
  have htake : (mem.store (cstr s).length [10, 0]).load 0 (cstr s).length = cstr s := by
    rw [Mem.load_store_of_disjoint (.inl (Nat.zero_add _).le)]
    have hle : (cstr s).length ≤ s.length + 1 := by simpa using hpre.length_le
    rw [mem.load_take 0 hle, h]
    exact (List.prefix_iff_eq_take.mp hpre).symm
  rw [hstore, hlen, Mem.load_add, htake, Nat.zero_add, Mem.load_store, List.append_assoc]
  rfl

/-- The buffer is still empty when the message is stored in it, so the line is the message, up to its
first zero byte, and a newline. -/
theorem prnTs_eq (sPrevMsec nowMsec : Int) (t : TimeOfDay) (msg : List UInt8) :
    prnTs sPrevMsec nowMsec (some t) msg =
      some ⟨1000 ≤ wrap 32 (nowMsec - sPrevMsec), cstr (msg.take 1998) ++ [10]⟩ := by
  obtain ⟨timebuf, htimebuf, hload⟩ := nowTimestr_eq (fun _ => 0) t
  have hts : 0 ∉ timestr t := by simpa [timestr] using zero_notMem_timeText t
  have htslen : (timestr t).length = 14 := congrArg Nat.succ (length_timeText t)
  have hpfxlen : timebuf.strlen 40 = some 14 := by
    have h := (Mem.cstr_load 40 (s := timestr t) (by rw [htslen]; exact hload)
      (by rw [htslen]; decide)).2
    rwa [cstr_eq_self hts, htslen] at h
  -- The elapsed part leaves the first byte of the buffer as it was.
  have hempty (bs : List UInt8) : Mem.strlen 2000 (Mem.store (fun _ => 0) 14 bs) = some 0 := by
    have hzero : (Mem.store (fun _ => 0) 14 bs).load 0 1 = [0] :=
      Mem.load_store_of_disjoint (.inl (by decide))
    exact (Mem.cstr_load 2000 (s := []) hzero (by decide)).2
  have hmsg : (msg.take 1998).length < 2000 := by
    have := List.length_take_le 1998 msg
    omega
  have hstored (m : Mem) := m.load_store 0 (msg.take 1998 ++ [0])
  simp only [List.length_append, List.length_singleton] at hstored
  have hslen (m : Mem) := (Mem.cstr_load 2000 (hstored m) hmsg).2
  have hle : (cstr (msg.take 1998)).length ≤ (msg.take 1998).length :=
    (List.takeWhile_prefix _).length_le
  have hline (m : Mem) := (Mem.cstr_load 2000 (load_newline (hstored m)) (by
    have := List.length_take_le 1998 msg
    rw [List.length_append, List.length_singleton]
    omega)).1
  have hnozero : 0 ∉ cstr (msg.take 1998) ++ [10] := by
    simpa using zero_notMem_cstr _
  have hmax := List.length_take_le 1998 msg
  simp only [prnTs, htimebuf, hpfxlen, Option.bind_eq_bind, Option.bind_some,
    Mem.snprintf_eq_some 2000 14 (40 - 14) (by decide) (by decide), hempty,
    Mem.snprintf_eq_some 2000 0 (2000 - 0 - 1) (by decide) (by decide)]
  rw [show 2000 - 0 - 1 - 1 = 1998 from rfl, hslen, Option.bind_some,
    Mem.storeIn_eq_some (by rw [List.length_singleton]; omega), Option.bind_some,
    Mem.storeIn_eq_some (by rw [List.length_singleton]; omega), Option.bind_some, hline,
    cstr_eq_self hnozero]
  rfl

/-- A text that repeats a part without zeros has no zeros. -/
theorem zero_notMem_of_repeats {part text : List UInt8} {n : Nat} (hpart : 0 ∉ part)
    (hne : part ≠ []) (h : text.take n = (part ++ text).take n) : 0 ∉ text.take n := by
  have hpos := List.length_pos_iff.mpr hne
  have hbyte (i : Nat) (hi : i < n) : text[i]? ≠ some 0 := by
    induction i using Nat.strong_induction_on with
    | h i ih =>
      have hget := congrArg (·[i]?) h
      simp only [List.getElem?_take, hi, if_true] at hget
      rw [hget]
      rcases Nat.lt_or_ge i part.length with hlt | hge
      · rw [List.getElem?_append_left hlt]
        exact fun hzero => hpart (List.mem_of_getElem? hzero)
      · rw [List.getElem?_append_right hge]
        exact ih (i - part.length) (by omega) (by omega)
  intro hmem
  obtain ⟨i, hi⟩ := List.mem_iff_getElem?.mp hmem
  rw [List.getElem?_take] at hi
  split at hi
  · next hlt => exact hbyte i hlt hi
  · cases hi

/-- The promise is kept exactly for messages of 1998 bytes or more that begin with the timestamp and
the elapsed part, over and over again. -/
theorem prnTs_promise_iff (sPrevMsec : Int) (elapsed : Nat) (t : TimeOfDay) (msg : List UInt8) :
    Promise sPrevMsec elapsed t msg ↔ 1998 ≤ msg.length ∧
      msg.take 1998 = (timestr t ++ elapsedText elapsed ++ msg).take 1998 := by
  have hpart : 0 ∉ timestr t ++ elapsedText elapsed := by
    simp [timestr, zero_notMem_timeText, zero_notMem_elapsedText]
  have hlen : (timestr t ++ elapsedText elapsed).length ≤ 40 := by
    have htime := length_timeText t
    have helapsed := length_elapsedText_le elapsed
    rw [List.length_append, timestr, List.length_cons]
    omega
  have hne : timestr t ++ elapsedText elapsed ≠ [] := List.cons_ne_nil _ _
  unfold Promise promised
  simp only [prnTs_eq, Option.some.injEq, exists_eq_left', List.append_cancel_right_eq]
  revert hpart hlen hne
  generalize timestr t ++ elapsedText elapsed = part
  intro hpart hlen hne
  have hpos := List.length_pos_iff.mpr hne
  have htake : (part ++ msg).take 1998 = part ++ msg.take (1998 - part.length) := by
    rw [List.take_append, List.take_of_length_le (by omega)]
  rw [htake]
  constructor
  · intro h
    have hlength := congrArg List.length h
    rw [List.length_append, List.length_take] at hlength
    have hpre : cstr (msg.take 1998) <+: msg.take 1998 := List.takeWhile_prefix _
    have hle := hpre.length_le
    rw [List.length_take] at hle
    have hmsg : 1998 ≤ msg.length := by omega
    refine ⟨hmsg, ?_⟩
    rw [← h]
    refine (hpre.eq_of_length ?_).symm
    rw [List.length_take]
    omega
  · rintro ⟨-, h⟩
    rw [cstr_eq_self (zero_notMem_of_repeats hpart hne (h.trans htake.symm)), h]

/-- A message of two bytes is printed without a timestamp. -/
theorem prnTs_not_promise :
    ¬Promise 0 1012 ⟨123, 11, 31, 23, 59, 8, 45678, by decide, by decide, by decide, by decide⟩
      [65, 66] := by
  rintro ⟨out, hout, hline⟩
  rw [prnTs_eq] at hout
  cases hout
  revert hline
  decide

end Tlpi.Prn
