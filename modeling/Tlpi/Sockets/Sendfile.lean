import Mathlib.Data.List.TakeDrop
import Tlpi.Sockets.Rdwrn

/-!
# `sendfile` by `read`, `write` and `lseek` (`sockets/sendfile.c`)

The input is an open file: its bytes, its file offset, and the results that its `read` and `lseek`
calls are going to have; after the last of these every call succeeds in full. The output is as for
`writen`. The bytes read are those up to the end of the file, so the conversion of `totSent` to
`ssize_t` keeps it.
-/

namespace Tlpi.Sendfile
open ReadLine Rdwrn

/-- The outcome of a `read`: at most `k + 1` bytes, or an error. -/
inductive ReadCall
  | bytes (k : Nat)
  | err (errno : Errno)
  deriving DecidableEq, Repr

structure InFd where
  file : List UInt8
  pos : Nat
  reads : List ReadCall
  /-- The error of each `lseek` that fails. -/
  seeks : List (Option Errno)
  deriving DecidableEq, Repr

/-- The number of bytes that the next `read` transfers when it asks for `n` that there are. -/
def readCount : List ReadCall → Nat → Except Errno Nat
  | [], n => .ok n
  | .bytes k :: _, n => .ok (min (k + 1) n)
  | .err e :: _, _ => .error e

def writeCount : List WriteResult → Nat → Except Errno Nat
  | [], n => .ok n
  | .bytes k :: _, n => .ok (min k n)
  | .err e :: _, _ => .error e

def InFd.read (n : Nat) (fd : InFd) : Except Errno (List UInt8) × InFd :=
  match readCount fd.reads (min n (fd.file.length - fd.pos)) with
  | .error e => (.error e, { fd with reads := fd.reads.tail })
  | .ok m =>
    (.ok ((fd.file.drop fd.pos).take m), { fd with pos := fd.pos + m, reads := fd.reads.tail })

/-- `lseek(fd, 0, SEEK_CUR)` -/
def InFd.lseekCur (fd : InFd) : Except Errno Nat × InFd :=
  match fd.seeks with
  | some e :: seeks => (.error e, { fd with seeks })
  | seeks => (.ok fd.pos, { fd with seeks := seeks.tail })

/-- `lseek(fd, off, SEEK_SET)` -/
def InFd.lseekSet (off : Int) (fd : InFd) : Except Errno Nat × InFd :=
  match fd.seeks with
  | some e :: seeks => (.error e, { fd with seeks })
  | seeks =>
    if off < 0 then (.error EINVAL, { fd with seeks := seeks.tail })
    else (.ok off.toNat, { fd with pos := off.toNat, seeks := seeks.tail })

def BUF_SIZE : Nat := 8192

/-- How `sendfile` ends other than by returning a count; `fatal` terminates the process. -/
inductive Stop
  | error (errno : Errno)
  | fatal
  deriving DecidableEq, Repr

theorem write_fst (bs : List UInt8) (fd : OutFd) :
    (write bs fd).1 = writeCount fd.results bs.length := by
  unfold write
  split <;> rename_i h <;> rw [h] <;> rfl

/-- The transfer loop; its result is `totSent` at the end of the loop. -/
def sendfile.loop (count totSent : Nat) (inFd : InFd) (outFd : OutFd) :
    Except Stop Nat × InFd × OutFd :=
  if _hc : 0 < count then
    match inFd.read (min BUF_SIZE count) with
    | (.error e, inFd) => (.error (.error e), inFd, outFd)
    | (.ok [], inFd) => (.ok totSent, inFd, outFd) -- EOF
    | (.ok buf, inFd) =>
      match write buf outFd with
      | (.error e, outFd) => (.error (.error e), inFd, outFd)
      | (.ok 0, outFd) => (.error .fatal, inFd, outFd) -- should never happen
      | (.ok (numSent + 1), outFd) =>
        loop (count - (numSent + 1)) (totSent + (numSent + 1)) inFd outFd
  else (.ok totSent, inFd, outFd)
termination_by count

/-- What a call leaves: `ret` is the count or the reason for its absence. -/
structure Result where
  ret : Except Stop Nat
  offset : Option Int
  inFd : InFd
  outFd : OutFd
  deriving DecidableEq

/-- The end of `sendfile` when it has an offset to return. -/
def sendfile.finish (orig totSent : Nat) (inFd : InFd) (outFd : OutFd) : Result :=
  match inFd.lseekCur with
  | (.error e, inFd) => ⟨.error (.error e), some (-1), inFd, outFd⟩
  | (.ok cur, inFd) =>
    match inFd.lseekSet orig with
    | (.error e, inFd) => ⟨.error (.error e), some cur, inFd, outFd⟩
    | (.ok _, inFd) => ⟨.ok totSent, some cur, inFd, outFd⟩

/-- `offset` is `*offset`, none for a null pointer. -/
def sendfile (outFd : OutFd) (inFd : InFd) (offset : Option Int) (count : Nat) : Result :=
  match offset with
  | none =>
    let (ret, inFd, outFd) := sendfile.loop count 0 inFd outFd
    ⟨ret, none, inFd, outFd⟩
  | some off =>
    match inFd.lseekCur with
    | (.error e, inFd) => ⟨.error (.error e), offset, inFd, outFd⟩
    | (.ok orig, inFd) =>
      match inFd.lseekSet off with
      | (.error e, inFd) => ⟨.error (.error e), offset, inFd, outFd⟩
      | (.ok _, inFd) =>
        match sendfile.loop count 0 inFd outFd with
        | (.error stop, inFd, outFd) => ⟨.error stop, offset, inFd, outFd⟩
        | (.ok totSent, inFd, outFd) => sendfile.finish orig totSent inFd outFd

/-! ### Single calls -/

theorem readCount_ok {reads : List ReadCall} {n m : Nat} (h : readCount reads n = .ok m) :
    m ≤ n ∧ (m = 0 → n = 0) := by
  cases reads with
  | nil => cases h; exact ⟨Nat.le_refl _, id⟩
  | cons r reads =>
    cases r with
    | bytes k => cases h; exact ⟨Nat.min_le_right .., by omega⟩
    | err => cases h

theorem InFd.read_error {n : Nat} {fd fd' : InFd} {e : Errno} (h : fd.read n = (.error e, fd')) :
    readCount fd.reads (min n (fd.file.length - fd.pos)) = .error e ∧
      fd' = { fd with reads := fd.reads.tail } := by
  unfold InFd.read at h
  split at h
  · rename_i hc
    cases h
    exact ⟨hc, rfl⟩
  · cases h

theorem InFd.read_ok {n : Nat} {fd fd' : InFd} {bs : List UInt8} (h : fd.read n = (.ok bs, fd')) :
    readCount fd.reads (min n (fd.file.length - fd.pos)) = .ok bs.length ∧
      bs = (fd.file.drop fd.pos).take bs.length ∧
      fd' = { fd with pos := fd.pos + bs.length, reads := fd.reads.tail } := by
  unfold InFd.read at h
  split at h
  · cases h
  · rename_i m hc
    have hlen : ((fd.file.drop fd.pos).take m).length = m := by
      have := (readCount_ok hc).1
      rw [List.length_take, List.length_drop]
      omega
    cases h
    rw [hlen]
    exact ⟨hc, rfl, rfl⟩

theorem write_tail {bs : List UInt8} {fd fd' : OutFd} {r : Except Errno Nat}
    (h : write bs fd = (r, fd')) : fd'.results = fd.results.tail := by
  obtain ⟨results, written⟩ := fd
  cases results with
  | nil => cases h; rfl
  | cons w rs => cases w <;> cases h <;> rfl

/-- The `i`-th `lseek` call fails: the calls 0 and 1 set the offset, 2 fetches the new one and 3
restores the old one. -/
def seekFails (seeks : List (Option Errno)) (i : Nat) : Bool := seeks[i]?.join.isSome

@[simp] theorem seekFails_tail (seeks : List (Option Errno)) (i : Nat) :
    seekFails seeks.tail i = seekFails seeks (i + 1) := by
  cases seeks <;> rfl

theorem seekFails_of_none {seeks : List (Option Errno)} (h : ∀ s ∈ seeks, s = none) (i : Nat) :
    seekFails seeks i = false := by
  unfold seekFails
  cases hs : seeks[i]? with
  | none => rfl
  | some s => rw [h s (List.mem_of_getElem? hs)]; rfl

theorem InFd.lseekCur_error {fd : InFd} (h : seekFails fd.seeks 0 = true) :
    ∃ e, fd.lseekCur = (.error e, { fd with seeks := fd.seeks.tail }) := by
  obtain ⟨file, pos, reads, seeks⟩ := fd
  match seeks with
  | some e :: seeks => exact ⟨e, rfl⟩

theorem InFd.lseekCur_ok {fd : InFd} (h : seekFails fd.seeks 0 = false) :
    fd.lseekCur = (.ok fd.pos, { fd with seeks := fd.seeks.tail }) := by
  obtain ⟨file, pos, reads, seeks⟩ := fd
  match seeks with
  | [] => rfl
  | none :: seeks => rfl

theorem InFd.lseekSet_error {fd : InFd} {off : Int} (h : seekFails fd.seeks 0 = true ∨ off < 0) :
    ∃ e, fd.lseekSet off = (.error e, { fd with seeks := fd.seeks.tail }) := by
  obtain ⟨file, pos, reads, seeks⟩ := fd
  match seeks with
  | [] => exact ⟨EINVAL, if_pos (h.resolve_left nofun)⟩
  | none :: seeks => exact ⟨EINVAL, if_pos (h.resolve_left nofun)⟩
  | some e :: seeks => exact ⟨e, rfl⟩

theorem InFd.lseekSet_ok {fd : InFd} {off : Int} (h : seekFails fd.seeks 0 = false)
    (hoff : 0 ≤ off) : fd.lseekSet off =
      (.ok off.toNat, { fd with pos := off.toNat, seeks := fd.seeks.tail }) := by
  obtain ⟨file, pos, reads, seeks⟩ := fd
  match seeks with
  | [] => exact if_neg (by omega)
  | none :: seeks => exact if_neg (by omega)

/-- With its first two `lseek` calls successful, `sendfile` goes through its loop from `*offset`. -/
theorem sendfile_some {outFd : OutFd} {inFd : InFd} {off : Int} {count : Nat}
    (h₀ : seekFails inFd.seeks 0 = false) (h₁ : seekFails inFd.seeks 1 = false) (hoff : 0 ≤ off) :
    sendfile outFd inFd (some off) count =
      match sendfile.loop count 0
        { inFd with pos := off.toNat, seeks := inFd.seeks.tail.tail } outFd with
      | (.error stop, inFd', outFd') => ⟨.error stop, some off, inFd', outFd'⟩
      | (.ok totSent, inFd', outFd') => sendfile.finish inFd.pos totSent inFd' outFd' := by
  have h₁' : seekFails { inFd with seeks := inFd.seeks.tail }.seeks 0 = false := by simpa using h₁
  simp only [sendfile, InFd.lseekCur_ok h₀, InFd.lseekSet_ok h₁' hoff]

theorem sendfile.finish_of_ok {orig totSent : Nat} {inFd : InFd} {outFd : OutFd}
    (h₀ : seekFails inFd.seeks 0 = false) (h₁ : seekFails inFd.seeks 1 = false) :
    sendfile.finish orig totSent inFd outFd = ⟨.ok totSent, some inFd.pos,
      { inFd with pos := orig, seeks := inFd.seeks.tail.tail }, outFd⟩ := by
  have h₁' : seekFails { inFd with seeks := inFd.seeks.tail }.seeks 0 = false := by simpa using h₁
  simp only [sendfile.finish, InFd.lseekCur_ok h₀,
    InFd.lseekSet_ok h₁' (Int.natCast_nonneg orig), Int.toNat_natCast]

/-! ### The range that is sent -/

/-- No call of the list fails, and every `write` transfers at least one byte. -/
structure Faultless (reads : List ReadCall) (writes : List WriteResult) : Prop where
  reads : ∀ r ∈ reads, ∃ k, r = .bytes k
  writes : ∀ w ∈ writes, ∃ k, w = .bytes (k + 1)

/-- While all is sent, every `write` finds room for the bytes of the `read` before it; `count` bytes
are wanted and `avail` are left in the file. -/
def WritesFull : List WriteResult → List ReadCall → Nat → Nat → Prop
  | [], _, _, _ => True
  | w :: writes, reads, count, avail =>
    match readCount reads (min (min BUF_SIZE count) avail) with
    | .error _ => True
    | .ok m => m = 0 ∨ writeCount (w :: writes) m = .ok m ∧
      WritesFull writes reads.tail (count - m) (avail - m)

theorem Faultless.tail {reads : List ReadCall} {writes : List WriteResult}
    (h : Faultless reads writes) : Faultless reads.tail writes.tail :=
  ⟨fun r hr => h.reads r (List.mem_of_mem_tail hr),
    fun w hw => h.writes w (List.mem_of_mem_tail hw)⟩

theorem Faultless.readCount_ne_error {reads : List ReadCall} {writes : List WriteResult}
    (h : Faultless reads writes) (n : Nat) (e : Errno) : readCount reads n ≠ .error e := by
  cases reads with
  | nil => exact nofun
  | cons r reads =>
    obtain ⟨k, rfl⟩ := h.reads r List.mem_cons_self
    exact nofun

theorem Faultless.writeCount_ok {reads : List ReadCall} {writes : List WriteResult}
    (h : Faultless reads writes) (n : Nat) : ∃ k, writeCount writes (n + 1) = .ok (k + 1) := by
  cases writes with
  | nil => exact ⟨n, rfl⟩
  | cons w writes =>
    obtain ⟨k, rfl⟩ := h.writes w List.mem_cons_self
    exact ⟨min k n, by rw [writeCount, Nat.add_min_add_right]⟩

theorem Faultless.write_ne {reads : List ReadCall} {bs : List UInt8} {fd fd' : OutFd}
    {r : Except Errno Nat} (h : Faultless reads fd.results) (hne : bs ≠ [])
    (hr : ∀ k, r ≠ .ok (k + 1)) : write bs fd ≠ (r, fd') := by
  obtain ⟨b, bs, rfl⟩ := List.exists_cons_of_ne_nil hne
  obtain ⟨k, hk⟩ := h.writeCount_ok bs.length
  intro hw
  have hfst := write_fst (b :: bs) fd
  rw [hw, List.length_cons, hk] at hfst
  exact hr k hfst

/-- The first two calls of a round, both of them successful. -/
theorem writesFull_of_readCount {reads : List ReadCall} {writes : List WriteResult}
    {count avail m : Nat} (h : readCount reads (min (min BUF_SIZE count) avail) = .ok m)
    (hm : m ≠ 0) : WritesFull writes reads count avail ↔
      writeCount writes m = .ok m ∧ WritesFull writes.tail reads.tail (count - m) (avail - m) := by
  cases writes with
  | nil => simp [WritesFull, writeCount]
  | cons w writes =>
    rw [WritesFull, h]
    simp only [hm, false_or, List.tail_cons]

/-- Nothing is left to read. -/
theorem writesFull_of_eq_zero {reads : List ReadCall} {writes : List WriteResult}
    {count avail : Nat} (h : min (min BUF_SIZE count) avail = 0) :
    WritesFull writes reads count avail := by
  cases writes with
  | nil => trivial
  | cons w writes =>
    rw [WritesFull, h]
    split
    · trivial
    · rename_i m hm
      exact .inl (Nat.le_zero.mp (readCount_ok hm).1)

/-- What the loop has done when no call fails: `m` bytes were read and `s` of them sent. -/
structure LoopSpec (count totSent : Nat) (inFd : InFd) (outFd : OutFd)
    (r : Except Stop Nat × InFd × OutFd) (m s : Nat) : Prop where
  ret : r.1 = .ok (totSent + s)
  pos : r.2.1.pos = inFd.pos + m
  file : r.2.1.file = inFd.file
  seeks : r.2.1.seeks = inFd.seeks
  sent_le : s ≤ m
  le_file : m ≤ inFd.file.length - inFd.pos
  le_count : s ≤ count
  eof : s < count → inFd.file.length ≤ inFd.pos + m
  full : WritesFull outFd.results inFd.reads count (inFd.file.length - inFd.pos) ↔ m = s
  written : m = s → r.2.2.written = outFd.written ++ (inFd.file.drop inFd.pos).take s

theorem sendfile.loop_spec (count totSent : Nat) (inFd : InFd) (outFd : OutFd)
    (h : Faultless inFd.reads outFd.results) :
    ∃ m s, LoopSpec count totSent inFd outFd (sendfile.loop count totSent inFd outFd) m s := by
  fun_induction sendfile.loop count totSent inFd outFd with
  | case1 count totSent inFd outFd hc e inFd' hr =>
    exact absurd (InFd.read_error hr).1 (h.readCount_ne_error _ e)
  | case2 count totSent inFd outFd hc inFd' hr =>
    obtain ⟨hcount, -, rfl⟩ := InFd.read_ok hr
    have hend := (readCount_ok hcount).2 rfl
    have hbuf : 0 < BUF_SIZE := by decide
    exact ⟨0, 0, rfl, rfl, rfl, rfl, Nat.le_refl _, Nat.zero_le _, Nat.zero_le _, by omega,
      iff_of_true (writesFull_of_eq_zero hend) rfl, by simp⟩
  | case3 count totSent inFd outFd hc buf inFd' hne hr e outFd' hw =>
    exact absurd hw (h.write_ne hne nofun)
  | case4 count totSent inFd outFd hc buf inFd' hne hr outFd' hw =>
    exact absurd hw (h.write_ne hne nofun)
  | case5 count totSent inFd outFd hc buf inFd' hne hr numSent outFd' hw ih =>
    obtain ⟨hcount, hbuf, rfl⟩ := InFd.read_ok hr
    obtain ⟨hsent, hwr, -⟩ := write_ok hw
    have hwc : writeCount outFd.results buf.length = .ok (numSent + 1) := by
      rw [← write_fst, hw]
    obtain ⟨m, s, ih⟩ := ih (by rw [write_tail hw]; exact h.tail)
    have hlen := (readCount_ok hcount).1
    have hle := ih.sent_le
    have hcnt := ih.le_count
    have hfile := ih.le_file
    have heof := ih.eof
    simp only at heof hfile
    have hsplit : (inFd.file.drop inFd.pos).take (buf.length + s) =
        buf ++ (inFd.file.drop (inFd.pos + buf.length)).take s := by
      rw [List.take_add, ← hbuf, List.drop_drop]
    refine ⟨buf.length + m, numSent + 1 + s, ?_, ?_, ih.file, ih.seeks, by omega, by omega, by omega,
      ?_, ?_, fun hms => ?_⟩
    · rw [ih.ret, Nat.add_assoc]
    · rw [ih.pos, Nat.add_assoc]
    · intro hlt
      have := heof (by omega)
      omega
    · rw [writesFull_of_readCount hcount (by omega), hwc, Except.ok.injEq]
      rcases Nat.lt_or_eq_of_le hsent with hlt | heq
      · exact iff_of_false (by omega) (by omega)
      · have hfull := ih.full
        rw [write_tail hw, show numSent + 1 = buf.length from heq] at hfull
        simp only [Nat.sub_add_eq] at hfull
        rw [hfull]
        omega
    · obtain rfl : m = s := by omega
      rw [ih.written rfl, hwr, ← hms, show numSent.succ = buf.length by omega, List.take_length,
        hsplit, List.append_assoc]
  | case6 count totSent inFd outFd hc =>
    exact ⟨0, 0, rfl, rfl, rfl, rfl, Nat.le_refl _, Nat.zero_le _, Nat.zero_le _, by omega,
      iff_of_true (writesFull_of_eq_zero (by omega)) rfl, by simp⟩

/-- The offset from which `sendfile` reads. -/
def start (inFd : InFd) (offset : Option Int) : Nat := offset.elim inFd.pos Int.toNat

/-- The file offset that `sendfile` leaves to its caller. -/
def Result.final (r : Result) : Int := r.offset.getD r.inFd.pos

/-- One contiguous range of the file has been sent, and the offset is past it. -/
structure SendsRange (outFd : OutFd) (inFd : InFd) (offset : Option Int) (count n : Nat)
    (r : Result) : Prop where
  ret : r.ret = .ok n
  range : n ≤ inFd.file.length - start inFd offset
  written : r.outFd.written = outFd.written ++ (inFd.file.drop (start inFd offset)).take n
  le_count : n ≤ count
  eof : n < count → inFd.file.length ≤ start inFd offset + n
  final : r.final = start inFd offset + n

/-- When no call fails, `sendfile` returns what its loop has sent, and the offset that the loop has
reached. -/
theorem sendfile_spec {outFd : OutFd} {inFd : InFd} {offset : Option Int} (count : Nat)
    (h : Faultless inFd.reads outFd.results) (hseeks : ∀ s ∈ inFd.seeks, s = none)
    (hoff : ∀ off ∈ offset, 0 ≤ off) :
    ∃ m s r seeks, LoopSpec count 0 { inFd with pos := start inFd offset, seeks } outFd r m s ∧
      (sendfile outFd inFd offset count).ret = r.1 ∧
      (sendfile outFd inFd offset count).outFd = r.2.2 ∧
      (sendfile outFd inFd offset count).final = r.2.1.pos := by
  cases offset with
  | none =>
    obtain ⟨m, s, hspec⟩ := sendfile.loop_spec count 0 inFd outFd h
    exact ⟨m, s, _, inFd.seeks, hspec, rfl, rfl, rfl⟩
  | some off =>
    have hok : ∀ i, seekFails inFd.seeks i = false := seekFails_of_none hseeks
    obtain ⟨m, s, hspec⟩ := sendfile.loop_spec count 0
      { inFd with pos := off.toNat, seeks := inFd.seeks.tail.tail } outFd h
    refine ⟨m, s, _, inFd.seeks.tail.tail, hspec, ?_⟩
    have hret := hspec.ret
    have hrest := hspec.seeks
    rw [sendfile_some (hok 0) (hok 1) (hoff off rfl)]
    generalize sendfile.loop count 0 _ outFd = r at hret hrest ⊢
    obtain ⟨ret, inFd', outFd'⟩ := r
    cases hret
    simp only at hrest ⊢
    have h₂ : seekFails inFd'.seeks 0 = false := by simpa [hrest] using hok 2
    have h₃ : seekFails inFd'.seeks 1 = false := by simpa [hrest] using hok 3
    rw [sendfile.finish_of_ok h₂ h₃]
    exact ⟨rfl, rfl, rfl⟩

/-- When no call fails, `sendfile` sends one contiguous range exactly if no `write` is short. -/
theorem sendfile_sendsRange_iff (outFd : OutFd) (inFd : InFd) (offset : Option Int) (count : Nat)
    (h : Faultless inFd.reads outFd.results) (hseeks : ∀ s ∈ inFd.seeks, s = none)
    (hoff : ∀ off ∈ offset, 0 ≤ off) :
    (∃ n, SendsRange outFd inFd offset count n (sendfile outFd inFd offset count)) ↔
      WritesFull outFd.results inFd.reads count (inFd.file.length - start inFd offset) := by
  obtain ⟨m, s, r, seeks, hspec, hret, hout, hfinal⟩ := sendfile_spec count h hseeks hoff
  refine Iff.trans ⟨?_, fun hms => ?_⟩ hspec.full.symm
  · rintro ⟨n, hn⟩
    have hns : n = 0 + s := Except.ok.inj (hn.ret.symm.trans (hret.trans hspec.ret))
    have hpos := hn.final.symm.trans hfinal
    rw [hspec.pos] at hpos
    simp only at hpos
    omega
  · refine ⟨s, ?_, ?_, ?_, hspec.le_count, ?_, ?_⟩
    · rw [hret, hspec.ret, Nat.zero_add]
    · exact hms ▸ hspec.le_file
    · rw [hout, hspec.written hms]
    · exact hms ▸ hspec.eof
    · rw [hfinal, hspec.pos, hms]
      exact Int.natCast_add ..

theorem sendfile_sendsRange_iff_two_writes :
    (∃ n, SendsRange ⟨[.bytes 2, .bytes 1], []⟩ ⟨[97, 98, 99, 100], 0, [.bytes 1], []⟩ (some 1) 3 n
        (sendfile ⟨[.bytes 2, .bytes 1], []⟩ ⟨[97, 98, 99, 100], 0, [.bytes 1], []⟩ (some 1) 3)) ↔
      WritesFull [.bytes 2, .bytes 1] [.bytes 1] 3 3 :=
  sendfile_sendsRange_iff ⟨[.bytes 2, .bytes 1], []⟩ ⟨[97, 98, 99, 100], 0, [.bytes 1], []⟩ (some 1) 3
    ⟨by simp, by simp⟩ (by simp) (by simp)

/-- The file `abc` with `count` 2: after a short `write` of `a` the byte `b` is not sent again. -/
theorem sendfile_skips_after_short_write :
    (sendfile ⟨[.bytes 1], []⟩ ⟨[97, 98, 99], 0, [], []⟩ (some 0) 2).ret = .ok 2 ∧
      (sendfile ⟨[.bytes 1], []⟩ ⟨[97, 98, 99], 0, [], []⟩ (some 0) 2).outFd.written = [97, 99] ∧
      (sendfile ⟨[.bytes 1], []⟩ ⟨[97, 98, 99], 0, [], []⟩ (some 0) 2).offset = some 3 ∧
      Faultless [] [.bytes 1] ∧
      ¬∃ n, SendsRange ⟨[.bytes 1], []⟩ ⟨[97, 98, 99], 0, [], []⟩ (some 0) 2 n
        (sendfile ⟨[.bytes 1], []⟩ ⟨[97, 98, 99], 0, [], []⟩ (some 0) 2) := by
  have hrun : sendfile ⟨[.bytes 1], []⟩ ⟨[97, 98, 99], 0, [], []⟩ (some 0) 2 =
      ⟨.ok 2, some 3, ⟨[97, 98, 99], 0, [], []⟩, ⟨[], [97, 99]⟩⟩ := by
    simp [sendfile, sendfile.loop, sendfile.finish, InFd.lseekCur, InFd.lseekSet, InFd.read, readCount,
      BUF_SIZE, write]
  rw [hrun]
  refine ⟨rfl, rfl, rfl, ⟨nofun, by simp⟩, ?_⟩
  rintro ⟨n, hn⟩
  cases hn.ret
  cases hn.written

/-! ### The file offset of the caller -/

/-- How a sequence of `read` and `write` calls ends. -/
inductive End
  | done
  | failed
  | fatal
  deriving DecidableEq, Repr

/-- Where the results of alternating `read` and `write` calls bring the offset of a file of `size`
bytes from `pos`, when `count` bytes are wanted. -/
def reach (size count pos : Nat) (reads : List ReadCall) (writes : List WriteResult) : Nat × End :=
  if 0 < count then
    match readCount reads (min (min BUF_SIZE count) (size - pos)) with
    | .error _ => (pos, .failed)
    | .ok 0 => (pos, .done)
    | .ok (m + 1) =>
      match writeCount writes (m + 1) with
      | .error _ => (pos + (m + 1), .failed)
      | .ok 0 => (pos + (m + 1), .fatal)
      | .ok (k + 1) => reach size (count - (k + 1)) (pos + (m + 1)) reads.tail writes.tail
  else (pos, .done)
termination_by count

def End.ofRet : Except Stop Nat → End
  | .ok _ => .done
  | .error (.error _) => .failed
  | .error .fatal => .fatal

/-- A block that is read is written next. -/
theorem reach_write {size count pos m : Nat} {reads : List ReadCall} (hc : 0 < count)
    (hr : readCount reads (min (min BUF_SIZE count) (size - pos)) = .ok m) (hm : 0 < m)
    (writes : List WriteResult) :
    reach size count pos reads writes =
      match writeCount writes m with
      | .error _ => (pos + m, .failed)
      | .ok 0 => (pos + m, .fatal)
      | .ok (k + 1) => reach size (count - (k + 1)) (pos + m) reads.tail writes.tail := by
  obtain ⟨m, rfl⟩ := Nat.exists_eq_succ_of_ne_zero (Nat.ne_of_gt hm)
  rw [reach, if_pos hc, hr]

theorem sendfile.loop_reach (count totSent : Nat) (inFd : InFd) (outFd : OutFd) :
    ((sendfile.loop count totSent inFd outFd).2.1.pos,
        End.ofRet (sendfile.loop count totSent inFd outFd).1) =
        reach inFd.file.length count inFd.pos inFd.reads outFd.results ∧
      (sendfile.loop count totSent inFd outFd).2.1.seeks = inFd.seeks := by
  fun_induction sendfile.loop count totSent inFd outFd with
  | case1 count totSent inFd outFd hc e inFd' hr =>
    obtain ⟨hcount, rfl⟩ := InFd.read_error hr
    rw [reach, if_pos hc, hcount]
    exact ⟨rfl, rfl⟩
  | case2 count totSent inFd outFd hc inFd' hr =>
    obtain ⟨hcount, -, rfl⟩ := InFd.read_ok hr
    rw [reach, if_pos hc, hcount]
    exact ⟨rfl, rfl⟩
  | case3 count totSent inFd outFd hc buf inFd' hne hr e outFd' hw =>
    obtain ⟨hcount, -, rfl⟩ := InFd.read_ok hr
    have hwc : writeCount outFd.results buf.length = .error e := by rw [← write_fst, hw]
    rw [reach_write hc hcount (List.length_pos_iff.mpr hne), hwc]
    exact ⟨rfl, rfl⟩
  | case4 count totSent inFd outFd hc buf inFd' hne hr outFd' hw =>
    obtain ⟨hcount, -, rfl⟩ := InFd.read_ok hr
    have hwc : writeCount outFd.results buf.length = .ok 0 := by rw [← write_fst, hw]
    rw [reach_write hc hcount (List.length_pos_iff.mpr hne), hwc]
    exact ⟨rfl, rfl⟩
  | case5 count totSent inFd outFd hc buf inFd' hne hr numSent outFd' hw ih =>
    obtain ⟨hcount, -, rfl⟩ := InFd.read_ok hr
    have hwc : writeCount outFd.results buf.length = .ok (numSent + 1) := by rw [← write_fst, hw]
    rw [reach_write hc hcount (List.length_pos_iff.mpr hne), hwc]
    rw [write_tail hw] at ih
    exact ih
  | case6 count totSent inFd outFd hc =>
    rw [reach, if_neg hc]
    exact ⟨rfl, rfl⟩

/-- No `read` or `write` fails after the file offset has been set, nor does the `lseek` that
fetches the new offset; or it fails with the file offset where it was at entry. -/
def Restorable (outFd : OutFd) (inFd : InFd) (off : Int) (count : Nat) : Prop :=
  seekFails inFd.seeks 0 = true ∨ seekFails inFd.seeks 1 = true ∨ off < 0 ∨
    match reach inFd.file.length count off.toNat inFd.reads outFd.results with
    | (pos, .done) => seekFails inFd.seeks 2 = false ∨ pos = inFd.pos
    | (pos, .failed) => pos = inFd.pos
    | (_, .fatal) => True

theorem sendfile.finish_pos (orig totSent : Nat) {inFd : InFd} (outFd : OutFd)
    (h₁ : seekFails inFd.seeks 1 = false) :
    (sendfile.finish orig totSent inFd outFd).ret ≠ .error .fatal ∧
      ((sendfile.finish orig totSent inFd outFd).inFd.pos = orig ↔
        seekFails inFd.seeks 0 = false ∨ inFd.pos = orig) := by
  cases h₀ : seekFails inFd.seeks 0 with
  | false =>
    rw [sendfile.finish_of_ok h₀ h₁]
    exact ⟨nofun, by simp⟩
  | true =>
    obtain ⟨e, he⟩ := InFd.lseekCur_error h₀
    simp [sendfile.finish, he]

/-- `sendfile` with an offset leaves the file offset of `in_fd` alone exactly if no call fails
while it is elsewhere. -/
theorem sendfile_restores_iff (outFd : OutFd) (inFd : InFd) (off : Int) (count : Nat)
    (h : seekFails inFd.seeks 3 = false) :
    ((sendfile outFd inFd (some off) count).ret ≠ .error .fatal →
      (sendfile outFd inFd (some off) count).inFd.pos = inFd.pos) ↔
      Restorable outFd inFd off count := by
  unfold Restorable
  cases h₀ : seekFails inFd.seeks 0 with
  | true =>
    obtain ⟨e, he⟩ := InFd.lseekCur_error h₀
    simp [sendfile, he]
  | false =>
    rcases Decidable.em (seekFails inFd.seeks 1 = true ∨ off < 0) with h₁ | h₁
    · have h₁' : seekFails { inFd with seeks := inFd.seeks.tail }.seeks 0 = true ∨ off < 0 := by
        simpa using h₁
      obtain ⟨e, he⟩ := InFd.lseekSet_error h₁'
      have hret : (sendfile outFd inFd (some off) count).inFd.pos = inFd.pos := by
        simp only [sendfile, InFd.lseekCur_ok h₀, he]
      exact iff_of_true (fun _ => hret) (.inr (or_assoc.mp (.inl h₁)))
    · rw [not_or, Bool.not_eq_true] at h₁
      rw [sendfile_some h₀ h₁.1 (by omega), h₁.1]
      simp only [Bool.false_eq_true, h₁.2, false_or]
      obtain ⟨hreach, hseeks⟩ := sendfile.loop_reach count 0
        { inFd with pos := off.toNat, seeks := inFd.seeks.tail.tail } outFd
      simp only at hreach
      rw [← hreach]
      generalize sendfile.loop count 0 _ outFd = r at hseeks ⊢
      obtain ⟨ret, inFd', outFd'⟩ := r
      match ret with
      | .error .fatal => simp [End.ofRet]
      | .error (.error e) => simp [End.ofRet]
      | .ok totSent =>
        simp only at hseeks
        have h₃ : seekFails inFd'.seeks 1 = false := by simpa [hseeks] using h
        obtain ⟨hret, hpos⟩ := sendfile.finish_pos inFd.pos totSent outFd' h₃
        simp only [End.ofRet]
        rw [imp_iff_right hret, hpos, hseeks, seekFails_tail, seekFails_tail]

theorem sendfile_restores_iff_read_error :
    ((sendfile ⟨[], []⟩ ⟨[97, 98, 99], 1, [.err 5], []⟩ (some 1) 2).ret ≠ .error .fatal →
      (sendfile ⟨[], []⟩ ⟨[97, 98, 99], 1, [.err 5], []⟩ (some 1) 2).inFd.pos = 1) ↔
      Restorable ⟨[], []⟩ ⟨[97, 98, 99], 1, [.err 5], []⟩ 1 2 :=
  sendfile_restores_iff ⟨[], []⟩ ⟨[97, 98, 99], 1, [.err 5], []⟩ 1 2 rfl

/-- A `write` fails with `EPIPE`, and the file offset stays after the bytes that were read. -/
theorem sendfile_leaves_offset_moved :
    seekFails [] 3 = false ∧
      (sendfile ⟨[.err 32], []⟩ ⟨[97, 98, 99], 0, [], []⟩ (some 1) 2).ret = .error (.error 32) ∧
      (sendfile ⟨[.err 32], []⟩ ⟨[97, 98, 99], 0, [], []⟩ (some 1) 2).inFd.pos ≠ 0 := by
  have hrun : sendfile ⟨[.err 32], []⟩ ⟨[97, 98, 99], 0, [], []⟩ (some 1) 2 =
      ⟨.error (.error 32), some 1, ⟨[97, 98, 99], 3, [], []⟩, ⟨[], []⟩⟩ := by
    simp [sendfile, sendfile.loop, InFd.lseekCur, InFd.lseekSet, InFd.read, readCount, BUF_SIZE,
      write]
  rw [hrun]
  exact ⟨rfl, rfl, nofun⟩

end Tlpi.Sendfile
