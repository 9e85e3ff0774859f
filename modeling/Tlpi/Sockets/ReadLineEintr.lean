import Mathlib.Data.List.DropRight
import Mathlib.Data.List.ReduceOption
import Tlpi.Sockets.ReadLineLemmas

/-!
# Interrupted reads in `readLine` and `readLineBuf`

A `read` that fails with `EINTR` is restarted by `readLine`; `readLineBuf` returns, and its caller
calls it again. The input is seen as a list of marks, the bytes and between them the interruptions.
-/

namespace Tlpi.ReadLine

/-- A byte to be read, or an interruption. -/
abbrev Mark := Option UInt8

def Fd.marks (fd : Fd) : List Mark :=
  fd.flatMap fun
    | .data bs => bs.map some
    | .err _ => [none]

/-- The only failures are interruptions, and no `read` returns end-of-file before the end. -/
def Fd.Interruptible (fd : Fd) : Prop := ∀ r ∈ fd, r = .err EINTR ∨ ∃ bs, bs ≠ [] ∧ r = .data bs

def ReadLineBuf.marks (rl : ReadLineBuf) : List Mark :=
  ((rl.buf.take rl.len.toNat).drop rl.next).map some ++ rl.fd.marks

structure ReadLineBuf.Valid (rl : ReadLineBuf) : Prop where
  interruptible : rl.fd.Interruptible
  len_le : rl.len ≤ rl.buf.length

/-- The marks of the first line, up to its newline, and what follows them. -/
def firstLine : List Mark → List Mark × List Mark
  | [] => ([], [])
  | none :: s => (none :: (firstLine s).1, (firstLine s).2)
  | some c :: s =>
    if c = newline then ([some c], s) else (some c :: (firstLine s).1, (firstLine s).2)

/-- The bytes after the last interruption. -/
def afterInterrupt (s : List Mark) : List UInt8 := (s.rtakeWhile Option.isSome).reduceOption

/-! ### The caller that retries -/

theorem ReadLineBuf.size_getc_error {rl rl' : ReadLineBuf} {e : Errno}
    (h : rl.getc = (.error e, rl')) : rl'.size < rl.size := by
  unfold ReadLineBuf.getc at h
  split at h
  · rename_i hnext
    split at h
    · rename_i hf
      cases h
      unfold ReadLineBuf.fill at hf
      split at hf
      · rename_i hr
        cases hf
        have := size_read_error hr
        simp only [ReadLineBuf.size]
        omega
      · cases hf
    · cases h
    · cases h
  · cases h

theorem readLineBuf.size_loop_error {n : Nat} {buffer : List UInt8} {rl : ReadLineBuf} {e : Errno}
    (h : (readLineBuf.loop n buffer rl).1.ret = .error e) :
    (readLineBuf.loop n buffer rl).2.size < rl.size := by
  fun_induction readLineBuf.loop n buffer rl with
  | case1 buffer rl e rl' hg => exact ReadLineBuf.size_getc_error hg
  | case2 => cases h
  | case3 => cases h
  | case4 buffer rl c rl' hg buffer' hc ih => exact Nat.lt_trans (ih h) (ReadLineBuf.size_getc hg)

theorem size_readLineBuf_error {n : Nat} {rl : ReadLineBuf}
    (h : (readLineBuf rl n).1.ret = .error EINTR) : (readLineBuf rl n).2.size < rl.size := by
  rcases Nat.eq_zero_or_pos n with rfl | hn
  · cases h
  · rw [readLineBuf, if_neg (by omega)] at h ⊢
    exact readLineBuf.size_loop_error h

/-- The caller's loop: call `readLineBuf` again after a failure with `EINTR`. -/
def retryLine (rl : ReadLineBuf) (n : Nat) : Result × ReadLineBuf :=
  if (readLineBuf rl n).1.ret = .error EINTR then retryLine (readLineBuf rl n).2 n
  else readLineBuf rl n
termination_by rl.size
decreasing_by exact size_readLineBuf_error ‹_›

/-- Lines read with buffers of the given sizes. -/
def retryLines (rl : ReadLineBuf) : List Nat → List Result
  | [] => []
  | n :: ns => (retryLine rl n).1 :: retryLines (retryLine rl n).2 ns

/-! ### The next mark -/

@[simp] theorem Fd.marks_nil : Fd.marks [] = [] := rfl

@[simp] theorem Fd.marks_data (bs : List UInt8) (fd : Fd) :
    Fd.marks (.data bs :: fd) = bs.map some ++ Fd.marks fd := rfl

@[simp] theorem Fd.marks_err (e : Errno) (fd : Fd) :
    Fd.marks (.err e :: fd) = none :: Fd.marks fd := rfl

/-- The three outcomes of a `read`. -/
theorem read_marks {n : Nat} {fd : Fd} (hn : 1 ≤ n) (h : Fd.Interruptible fd) :
    ∃ fd', Fd.Interruptible fd' ∧
      ((read n fd = (.ok [], fd') ∧ Fd.marks fd = [] ∧ Fd.marks fd' = []) ∨
        (read n fd = (.error EINTR, fd') ∧ Fd.marks fd = none :: Fd.marks fd') ∨
        ∃ b bs, read n fd = (.ok (b :: bs), fd') ∧ (b :: bs).length ≤ n ∧
          Fd.marks fd = (b :: bs).map some ++ Fd.marks fd') := by
  cases fd with
  | nil => exact ⟨[], h, .inl ⟨rfl, rfl, rfl⟩⟩
  | cons r fd =>
    have hfd : Fd.Interruptible fd := fun r' hr' => h r' (List.mem_cons_of_mem _ hr')
    rcases h r List.mem_cons_self with rfl | ⟨bs, hne, rfl⟩
    · exact ⟨fd, hfd, .inr (.inl ⟨rfl, rfl⟩)⟩
    · obtain ⟨b, bs, rfl⟩ := List.exists_cons_of_ne_nil hne
      obtain ⟨n, rfl⟩ := Nat.exists_eq_add_of_le' hn
      have hlen : (b :: bs.take n).length ≤ n + 1 := Nat.succ_le_succ (List.length_take_le ..)
      simp only [read, List.take_succ_cons]
      split
      · rename_i hle
        refine ⟨fd, hfd, .inr (.inr ⟨b, bs.take n, rfl, hlen, ?_⟩)⟩
        rw [Fd.marks_data, List.take_of_length_le (by simpa using hle)]
      · rename_i hlt
        refine ⟨_, ?_, .inr (.inr ⟨b, bs.take n, rfl, hlen, ?_⟩)⟩
        · intro r hr
          rcases List.mem_cons.mp hr with rfl | hr
          · exact .inr ⟨_, by simpa using hlt, rfl⟩
          · exact hfd r hr
        · rw [Fd.marks_data, Fd.marks_data, ← List.append_assoc, ← List.map_append,
            List.cons_append, List.drop_succ_cons, List.take_append_drop]

theorem ReadLineBuf.marks_of_le {rl : ReadLineBuf} (h : rl.len ≤ rl.next) :
    rl.marks = rl.fd.marks := by
  rw [ReadLineBuf.marks, List.drop_eq_nil_of_le, List.map_nil, List.nil_append]
  rw [List.length_take]
  omega

theorem ReadLineBuf.marks_of_lt {rl : ReadLineBuf} (h : rl.len ≤ rl.buf.length)
    (hlt : rl.next < rl.len) :
    rl.marks = some (rl.buf.getD rl.next 0) :: { rl with next := rl.next + 1 }.marks := by
  have hlen : rl.next < rl.buf.length := by omega
  have htake : rl.next < (rl.buf.take rl.len.toNat).length := by rw [List.length_take]; omega
  have hget : rl.buf.getD rl.next 0 = rl.buf[rl.next] := by
    rw [List.getD_eq_getElem?_getD, List.getElem?_eq_getElem hlen, Option.getD_some]
  rw [ReadLineBuf.marks, List.drop_eq_getElem_cons htake, List.getElem_take, hget]
  rfl

theorem ReadLineBuf.fetch_marks (rl : ReadLineBuf) (h : rl.Valid) (hlt : rl.next < rl.len) :
    ∃ rl' c, rl'.Valid ∧ getc.fetch rl = (.ok (some c), rl') ∧ rl.marks = some c :: rl'.marks :=
  ⟨{ rl with next := rl.next + 1 }, _, ⟨h.interruptible, h.len_le⟩, rfl, marks_of_lt h.len_le hlt⟩

/-- The head of the loop takes off the first mark. -/
theorem ReadLineBuf.getc_marks {rl : ReadLineBuf} (h : rl.Valid) :
    ∃ rl', rl'.Valid ∧ ((rl.getc = (.ok none, rl') ∧ rl.marks = [] ∧ rl'.marks = []) ∨
      (rl.getc = (.error EINTR, rl') ∧ rl.marks = none :: rl'.marks) ∨
      ∃ c, rl.getc = (.ok (some c), rl') ∧ rl.marks = some c :: rl'.marks) := by
  by_cases hnext : rl.len ≤ rl.next
  · rw [marks_of_le hnext]
    obtain ⟨fd', hfd', ⟨hr, hm, hm'⟩ | ⟨hr, hm⟩ | ⟨b, bs, hr, -, hm⟩⟩ :=
      read_marks (n := RL_MAX_BUF) (by decide) h.interruptible
    · refine ⟨⟨fd', rl.buf, rl.next, 0⟩, ⟨hfd', Int.natCast_nonneg _⟩, .inl ⟨?_, hm, ?_⟩⟩
      · simp [getc, if_pos hnext, fill, hr]
      · rw [marks_of_le (Int.natCast_nonneg _), hm']
    · refine ⟨⟨fd', rl.buf, rl.next, -1⟩, ⟨hfd', by simp only; omega⟩, .inr (.inl ⟨?_, ?_⟩)⟩
      · simp only [getc, if_pos hnext, fill, hr]
      · rw [marks_of_le (by simp only; omega), hm]
    · obtain ⟨rl', c, hv, hf, hm'⟩ := fetch_marks
        ⟨fd', (b :: bs) ++ rl.buf.drop (b :: bs).length, 0, (b :: bs).length⟩
        ⟨hfd', by simp only [List.length_append]; omega⟩ (by simp only [List.length_cons]; omega)
      refine ⟨rl', hv, .inr (.inr ⟨c, ?_, ?_⟩)⟩
      · simp only [getc, if_pos hnext, fill, hr, List.length_cons]
        exact hf
      · rw [hm, ← hm']
        simp [ReadLineBuf.marks]
  · obtain ⟨rl', c, hv, hf, hm⟩ := fetch_marks rl h (by omega)
    exact ⟨rl', hv, .inr (.inr ⟨c, by simp only [getc, if_neg hnext, hf], hm⟩)⟩

/-! ### One line -/

theorem afterInterrupt_append_none (s t : List Mark) :
    afterInterrupt (s ++ none :: t) = afterInterrupt t := by
  have htake : (s ++ none :: t).rtakeWhile Option.isSome = t.rtakeWhile Option.isSome := by
    induction t using List.reverseRecOn with
    | nil => exact List.rtakeWhile_concat_neg _ _ _ nofun
    | append_singleton t x ih =>
      rw [← List.cons_append, ← List.append_assoc, List.rtakeWhile_concat, List.rtakeWhile_concat,
        ih]
  rw [afterInterrupt, htake, afterInterrupt]

theorem reduceOption_map_some (bs : List UInt8) : (bs.map some).reduceOption = bs := by
  change (bs.map some).filterMap id = bs
  rw [List.filterMap_map, Function.id_comp, List.filterMap_some]

theorem afterInterrupt_map_some (bs : List UInt8) : afterInterrupt (bs.map some) = bs := by
  rw [afterInterrupt, List.rtakeWhile_eq_self_iff.mpr (by simp), reduceOption_map_some]

theorem readLineBuf.loop_error {n : Nat} {buffer : List UInt8} {rl rl' : ReadLineBuf} {e : Errno}
    (h : rl.getc = (.error e, rl')) :
    readLineBuf.loop n buffer rl = (⟨.error e, buffer, false⟩, rl') := by
  rw [readLineBuf.loop]
  split <;> rename_i h' <;> rw [h] at h' <;> cases h'
  rfl

/-- A call reads a line, or the part of it before the next interruption. -/
theorem readLineBuf_loop_marks {n : Nat} {buffer : List UInt8} {rl : ReadLineBuf} (h : rl.Valid)
    (hbuf : buffer.length ≤ n) :
    ∃ (rl' : ReadLineBuf) (bs : List UInt8), rl'.Valid ∧
      ((readLineBuf.loop n buffer rl =
          (⟨.ok ((buffer ++ bs).take n).length, (buffer ++ bs).take n, false⟩, rl') ∧
        firstLine rl.marks = (bs.map some, rl'.marks)) ∨
      ((readLineBuf.loop n buffer rl).1.ret = .error EINTR ∧
        (readLineBuf.loop n buffer rl).2 = rl' ∧
        firstLine rl.marks =
          (bs.map some ++ none :: (firstLine rl'.marks).1, (firstLine rl'.marks).2))) := by
  induction hm : rl.marks generalizing buffer rl with
  | nil =>
    obtain ⟨rl', hv, ⟨hg, -, hm'⟩ | ⟨-, hm'⟩ | ⟨c, -, hm'⟩⟩ := ReadLineBuf.getc_marks h
    · refine ⟨rl', [], hv, .inl ⟨?_, by rw [hm']; rfl⟩⟩
      rw [readLineBuf.loop_eof hg, List.append_nil, List.take_of_length_le hbuf]
    · cases hm.symm.trans hm'
    · cases hm.symm.trans hm'
  | cons m ms ih =>
    obtain ⟨rl', hv, ⟨-, hm', -⟩ | ⟨hg, hm'⟩ | ⟨c, hg, hm'⟩⟩ := ReadLineBuf.getc_marks h
    · cases hm.symm.trans hm'
    · obtain ⟨rfl, rfl⟩ := List.cons.inj (hm.symm.trans hm')
      rw [readLineBuf.loop_error hg]
      exact ⟨rl', [], hv, .inr ⟨rfl, rfl, rfl⟩⟩
    · obtain ⟨rfl, rfl⟩ := List.cons.inj (hm.symm.trans hm')
      rw [readLineBuf.loop_byte hg, firstLine]
      simp only [store_eq_take hbuf]
      split
      · exact ⟨rl', [c], hv, .inl ⟨rfl, rfl⟩⟩
      · obtain ⟨rl'', bs, hv', ⟨hl, hf⟩ | ⟨hret, hrl, hf⟩⟩ :=
          ih hv (List.length_take_le n (buffer ++ [c])) rfl
        · refine ⟨rl'', c :: bs, hv', .inl ⟨?_, by rw [hf]; rfl⟩⟩
          rw [hl, take_take_append, List.append_assoc, List.singleton_append]
        · exact ⟨rl'', c :: bs, hv', .inr ⟨hret, hrl, by rw [hf]; rfl⟩⟩

/-- A caller that retries receives of each line what follows its last interruption. -/
theorem retryLine_spec {n : Nat} {rl : ReadLineBuf} (h : rl.Valid) (hn : 1 ≤ n) :
    (retryLine rl n).1.line = (.ok ((afterInterrupt (firstLine rl.marks).1).take n).length,
        (afterInterrupt (firstLine rl.marks).1).take n) ∧
      (retryLine rl n).2.Valid ∧ (retryLine rl n).2.marks = (firstLine rl.marks).2 := by
  fun_induction retryLine rl n with
  | case1 rl hret ih =>
    rw [readLineBuf, if_neg (by omega)] at hret ih ⊢
    obtain ⟨rl', bs, hv, ⟨hl, -⟩ | ⟨-, rfl, hf⟩⟩ :=
      readLineBuf_loop_marks h (show ([] : List UInt8).length ≤ n from Nat.zero_le n)
    · rw [hl] at hret
      cases hret
    · rw [hf, afterInterrupt_append_none]
      exact ih hv
  | case2 rl hret =>
    rw [readLineBuf, if_neg (by omega)] at hret ⊢
    obtain ⟨rl', bs, hv, ⟨hl, hf⟩ | ⟨hret', -, -⟩⟩ :=
      readLineBuf_loop_marks h (show ([] : List UInt8).length ≤ n from Nat.zero_le n)
    · rw [hl, hf, afterInterrupt_map_some]
      exact ⟨rfl, hv, rfl⟩
    · exact absurd hret' hret

theorem readLine.loop_eintr {n : Nat} {buf : List UInt8} {fd fd' : Fd}
    (h : read 1 fd = (.error EINTR, fd')) : readLine.loop n buf fd = readLine.loop n buf fd' := by
  rw [readLine.loop]
  split <;> rename_i h' <;> rw [h] at h' <;> cases h'
  rw [if_pos rfl]

theorem readLine_loop_marks {n : Nat} {buf : List UInt8} {fd : Fd} (h : Fd.Interruptible fd)
    (hbuf : buf.length ≤ n - 1) :
    (readLine.loop n buf fd).1.line =
        (.ok ((buf ++ (firstLine fd.marks).1.reduceOption).take (n - 1)).length,
          (buf ++ (firstLine fd.marks).1.reduceOption).take (n - 1)) ∧
      Fd.Interruptible (readLine.loop n buf fd).2 ∧
      Fd.marks (readLine.loop n buf fd).2 = (firstLine fd.marks).2 := by
  induction hm : Fd.marks fd generalizing buf fd with
  | nil =>
    obtain ⟨fd', hfd', ⟨hr, -, hm'⟩ | ⟨-, hm'⟩ | ⟨b, bs, -, -, hm'⟩⟩ := read_marks (Nat.le_refl 1) h
    · rw [readLine.loop_eof hr]
      simp only [firstLine, List.reduceOption_nil, List.append_nil, List.take_of_length_le hbuf]
      exact ⟨rfl, hfd', hm'⟩
    · cases hm.symm.trans hm'
    · cases hm.symm.trans hm'
  | cons m ms ih =>
    obtain ⟨fd', hfd', ⟨-, hm', -⟩ | ⟨hr, hm'⟩ | ⟨b, bs, hr, hlen, hm'⟩⟩ :=
      read_marks (Nat.le_refl 1) h
    · cases hm.symm.trans hm'
    · obtain ⟨rfl, rfl⟩ := List.cons.inj (hm.symm.trans hm')
      rw [readLine.loop_eintr hr]
      exact ih hfd' hbuf rfl
    · obtain rfl : bs = [] := by simpa using hlen
      obtain ⟨rfl, rfl⟩ := List.cons.inj (hm.symm.trans hm')
      rw [readLine.loop_byte hr]
      simp only [store_eq_take hbuf, firstLine]
      split
      · exact ⟨rfl, hfd', rfl⟩
      · obtain ⟨hl, hi, hm''⟩ := ih hfd' (List.length_take_le (n - 1) (buf ++ [b])) rfl
        refine ⟨?_, hi, hm''⟩
        rw [hl, take_take_append, List.append_assoc]
        rfl

theorem readLine_marks {n : Nat} {fd : Fd} (h : Fd.Interruptible fd) :
    (readLine fd (n + 1)).1.line = (.ok ((firstLine fd.marks).1.reduceOption.take n).length,
        (firstLine fd.marks).1.reduceOption.take n) ∧
      Fd.Interruptible (readLine fd (n + 1)).2 ∧
      Fd.marks (readLine fd (n + 1)).2 = (firstLine fd.marks).2 := by
  rw [readLine, if_neg (by omega)]
  exact readLine_loop_marks h (Nat.zero_le _)

/-! ### All lines -/

/-- The lines of the input, cut to the given sizes, as a caller is to receive them. -/
def cutLines (bytes : List UInt8) : List Nat → List (Except Errno Nat × List UInt8)
  | [] => []
  | n :: ns => (.ok ((splitLine bytes).1.take n).length, (splitLine bytes).1.take n) ::
    cutLines (splitLine bytes).2 ns

/-- No interruption comes after bytes of a line that its caller is to receive: what follows the last
interruption of a line starts as the line does. -/
def Harmless : List Nat → List Mark → Prop
  | [], _ => True
  | n :: ns, s => (afterInterrupt (firstLine s).1).take n = (firstLine s).1.reduceOption.take n ∧
    Harmless ns (firstLine s).2

theorem firstLine_reduceOption (s : List Mark) :
    splitLine s.reduceOption = ((firstLine s).1.reduceOption, (firstLine s).2.reduceOption) := by
  induction s with
  | nil => rfl
  | cons m s ih =>
    cases m with
    | none => simp [firstLine, ih]
    | some c =>
      rw [List.reduceOption_cons_of_some, splitLine, ih, firstLine]
      split <;> rfl

theorem Fd.reduceOption_marks (fd : Fd) : (Fd.marks fd).reduceOption = Fd.bytes fd := by
  induction fd with
  | nil => rfl
  | cons r fd ih =>
    cases r with
    | data bs => rw [Fd.marks_data, List.reduceOption_append, reduceOption_map_some, ih,
        Fd.bytes_cons]
    | err e => exact ih

theorem readLineCalls_line {fd : Fd} (h : Fd.Interruptible fd) (ns : List Nat) :
    (readLineCalls fd (ns.map (· + 1))).1.map Result.line = cutLines fd.bytes ns := by
  induction ns generalizing fd with
  | nil => rfl
  | cons n ns ih =>
    obtain ⟨hl, hi, hm⟩ := readLine_marks (n := n) h
    simp only [List.map_cons, readLineCalls, cutLines, hl, ih hi]
    rw [← Fd.reduceOption_marks, ← Fd.reduceOption_marks, firstLine_reduceOption, hm]

theorem retryLines_iff {rl : ReadLineBuf} (h : rl.Valid) {ns : List Nat} (hns : ∀ n ∈ ns, 1 ≤ n) :
    (retryLines rl ns).map Result.line = cutLines rl.marks.reduceOption ns ↔
      Harmless ns rl.marks := by
  induction ns generalizing rl with
  | nil => exact iff_of_true rfl trivial
  | cons n ns ih =>
    obtain ⟨hl, hv, hm⟩ := retryLine_spec h (hns n List.mem_cons_self)
    have ih := ih hv fun m hm => hns m (List.mem_cons_of_mem _ hm)
    rw [hm] at ih
    simp only [retryLines, List.map_cons, cutLines, hl, firstLine_reduceOption, List.cons.injEq, ih,
      Harmless, Prod.mk.injEq, Except.ok.injEq]
    exact and_congr_left fun _ => ⟨fun h => h.2, fun h => ⟨congrArg List.length h, h⟩⟩

/-- On input with interruptions `readLine` gives its caller every line. A caller of `readLineBuf`
that retries receives every line exactly if no interruption falls into one. -/
theorem retryLines_lossless_iff (fd : Fd) (buf : List UInt8) (ns : List Nat)
    (hfd : Fd.Interruptible fd) (hns : ∀ n ∈ ns, 1 ≤ n) :
    (readLineCalls fd (ns.map (· + 1))).1.map Result.line = cutLines fd.bytes ns ∧
      ((retryLines (readLineBufInit fd buf) ns).map Result.line = cutLines fd.bytes ns ↔
        Harmless ns fd.marks) := by
  refine ⟨readLineCalls_line hfd ns, ?_⟩
  have hmarks : (readLineBufInit fd buf).marks = fd.marks :=
    ReadLineBuf.marks_of_le (Int.le_refl 0)
  rw [← Fd.reduceOption_marks, ← hmarks]
  exact retryLines_iff ⟨hfd, Int.natCast_nonneg _⟩ hns

/-- An interruption between two lines and one in the second of them. -/
theorem retryLines_lossless_iff_two_lines :
    (readLineCalls [.data [97, 10], .err EINTR, .data [98], .err EINTR, .data [10]] [5, 5]).1.map
        Result.line = cutLines [97, 10, 98, 10] [4, 4] ∧
      ((retryLines (readLineBufInit [.data [97, 10], .err EINTR, .data [98], .err EINTR, .data [10]] [])
          [4, 4]).map Result.line = cutLines [97, 10, 98, 10] [4, 4] ↔
        Harmless [4, 4] [some 97, some 10, none, some 98, none, some 10]) :=
  retryLines_lossless_iff [.data [97, 10], .err EINTR, .data [98], .err EINTR, .data [10]] [] [4, 4]
    (by simp [Fd.Interruptible, EINTR]) (by decide)

/-- The bytes `ab` of the line `abc` are lost. -/
theorem retryLines_loses_interrupted_line :
    Fd.Interruptible [.data [97, 98], .err EINTR, .data [99, 10]] ∧
      (readLineCalls [.data [97, 98], .err EINTR, .data [99, 10]] [9]).1.map Result.line =
        [(.ok 4, [97, 98, 99, 10])] ∧
      (retryLines (readLineBufInit [.data [97, 98], .err EINTR, .data [99, 10]] []) [8]).map
        Result.line = [(.ok 2, [99, 10])] := by
  have hfd : Fd.Interruptible [.data [97, 98], .err EINTR, .data [99, 10]] := by
    simp [Fd.Interruptible]
  refine ⟨hfd, readLineCalls_line hfd [8], ?_⟩
  have hvalid : (readLineBufInit [.data [97, 98], .err EINTR, .data [99, 10]] []).Valid :=
    ⟨hfd, Int.le_refl 0⟩
  have hline := (retryLine_spec hvalid (show 1 ≤ 8 by decide)).1
  rw [retryLines, retryLines, List.map_singleton, hline]
  rfl

end Tlpi.ReadLine
