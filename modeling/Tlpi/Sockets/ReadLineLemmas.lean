import Tlpi.Sockets.ReadLine

/-!
# `readLine` and `readLineBuf` return the same lines

On input without errors both functions are determined by the bytes still to come: the line up to
its newline is taken off, and as much of it as fits is stored (`splitLine`).
-/

namespace Tlpi.ReadLine

/-- The first line, with its newline, and what follows it. -/
def splitLine : List UInt8 → List UInt8 × List UInt8
  | [] => ([], [])
  | c :: cs => if c = newline then ([c], cs) else ((c :: (splitLine cs).1), (splitLine cs).2)

/-- The bytes that `fd` is going to deliver. -/
def Fd.bytes (fd : Fd) : List UInt8 :=
  fd.flatMap fun
    | .data bs => bs
    | .err _ => []

/-- No `read` fails, and none returns end-of-file before the end. -/
def Fd.Clean (fd : Fd) : Prop := ∀ r ∈ fd, ∃ bs, bs ≠ [] ∧ r = .data bs

/-- The bytes that `readLineBuf` has not given to its caller. -/
def ReadLineBuf.unread (rl : ReadLineBuf) : List UInt8 :=
  (rl.buf.take rl.len.toNat).drop rl.next ++ rl.fd.bytes

structure ReadLineBuf.Ok (rl : ReadLineBuf) : Prop where
  clean : rl.fd.Clean
  nonneg : 0 ≤ rl.len
  len_le : rl.len ≤ rl.buf.length

/-! ### A single `read` -/

@[simp] theorem Fd.bytes_nil : Fd.bytes [] = [] := rfl

@[simp] theorem Fd.bytes_cons (bs : List UInt8) (fd : Fd) :
    Fd.bytes (.data bs :: fd) = bs ++ Fd.bytes fd := by
  simp [Fd.bytes]

theorem Fd.Clean.cons {fd : Fd} {r : ReadResult} (h : Fd.Clean (r :: fd)) :
    ∃ bs, bs ≠ [] ∧ r = .data bs ∧ Fd.Clean fd := by
  obtain ⟨bs, hne, rfl⟩ := h r List.mem_cons_self
  exact ⟨bs, hne, rfl, fun r' hr' => h r' (List.mem_cons_of_mem _ hr')⟩

theorem Fd.Clean.data_cons {fd : Fd} {bs : List UInt8} (h : Fd.Clean fd) (hne : bs ≠ []) :
    Fd.Clean (.data bs :: fd) := by
  intro r hr
  rcases List.mem_cons.mp hr with rfl | hr
  · exact ⟨bs, hne, rfl⟩
  · exact h r hr

/-- A `read` takes bytes off the front of the input, and none only at its end. -/
theorem read_clean {n : Nat} {fd : Fd} (hn : 1 ≤ n) (h : Fd.Clean fd) :
    ∃ bs fd', read n fd = (.ok bs, fd') ∧ Fd.Clean fd' ∧ Fd.bytes fd = bs ++ Fd.bytes fd' ∧
      bs.length ≤ n ∧ (bs = [] → fd = []) := by
  cases fd with
  | nil => exact ⟨[], [], rfl, h, rfl, Nat.zero_le _, fun _ => rfl⟩
  | cons r fd =>
    obtain ⟨bs, hne, rfl, hfd⟩ := h.cons
    refine ⟨_, _, rfl, ?_, ?_, List.length_take_le .., ?_⟩
    · split
      · exact hfd
      · rename_i hlt
        exact hfd.data_cons (by simpa using Nat.lt_of_not_le hlt)
    · split
      · rename_i hle
        rw [Fd.bytes_cons, List.take_of_length_le hle]
      · rw [Fd.bytes_cons, Fd.bytes_cons, ← List.append_assoc, List.take_append_drop]
    · intro hnil
      rcases List.take_eq_nil_iff.mp hnil with h0 | hbs
      · omega
      · exact absurd hbs hne

theorem Fd.bytes_eq_nil {fd : Fd} (h : Fd.Clean fd) (hb : Fd.bytes fd = []) : fd = [] := by
  cases fd with
  | nil => rfl
  | cons r fd =>
    obtain ⟨bs, hne, rfl, -⟩ := h.cons
    rw [Fd.bytes_cons] at hb
    exact absurd (List.append_eq_nil_iff.mp hb).1 hne

theorem read_one_nil {fd : Fd} (h : Fd.Clean fd) (hb : Fd.bytes fd = []) :
    read 1 fd = (.ok [], []) := by
  rw [Fd.bytes_eq_nil h hb]
  rfl

theorem read_one_cons {fd : Fd} {c : UInt8} {cs : List UInt8} (h : Fd.Clean fd)
    (hb : Fd.bytes fd = c :: cs) :
    ∃ fd', read 1 fd = (.ok [c], fd') ∧ Fd.Clean fd' ∧ Fd.bytes fd' = cs := by
  obtain ⟨bs, fd', hr, hc, happ, hlen, hnil⟩ := read_clean (Nat.le_refl 1) h
  rw [hb] at happ
  cases bs with
  | nil =>
    rw [hnil rfl] at hb
    cases hb
  | cons b bs =>
    obtain rfl : bs = [] := by simpa using hlen
    simp only [List.cons_append, List.nil_append, List.cons.injEq] at happ
    obtain ⟨rfl, rfl⟩ := happ
    exact ⟨fd', hr, hc, rfl⟩

/-! ### The next character of `readLineBuf` -/

theorem ReadLineBuf.Ok.init {fd : Fd} (h : Fd.Clean fd) (buf : List UInt8) :
    (readLineBufInit fd buf).Ok :=
  ⟨h, Int.le_refl 0, Int.natCast_nonneg _⟩

theorem ReadLineBuf.unread_of_le {rl : ReadLineBuf} (h : rl.len ≤ rl.next) :
    rl.unread = rl.fd.bytes := by
  rw [ReadLineBuf.unread, List.drop_eq_nil_of_le, List.nil_append]
  rw [List.length_take]
  omega

theorem ReadLineBuf.unread_of_lt {rl : ReadLineBuf} (h : rl.Ok) (hlt : rl.next < rl.len) :
    rl.unread = rl.buf.getD rl.next 0 :: { rl with next := rl.next + 1 }.unread := by
  have hlen : rl.next < rl.buf.length := by have := h.len_le; omega
  have htake : rl.next < (rl.buf.take rl.len.toNat).length := by rw [List.length_take]; omega
  have hget : rl.buf.getD rl.next 0 = rl.buf[rl.next] := by
    rw [List.getD_eq_getElem?_getD, List.getElem?_eq_getElem hlen, Option.getD_some]
  rw [ReadLineBuf.unread, List.drop_eq_getElem_cons htake, List.getElem_take, hget]
  rfl

/-- What `getc` delivers is the next unread byte. -/
theorem ReadLineBuf.fetch_spec {rl : ReadLineBuf} (h : rl.Ok) (hlt : rl.next < rl.len) :
    ∃ c rl', getc.fetch rl = (.ok (some c), rl') ∧ rl'.Ok ∧ rl.unread = c :: rl'.unread :=
  ⟨_, _, rfl, ⟨h.clean, h.nonneg, h.len_le⟩, unread_of_lt h hlt⟩

theorem ReadLineBuf.fill_spec {rl : ReadLineBuf} (h : rl.Ok) :
    ∃ k rl', rl.fill = (.ok k, rl') ∧ { rl' with next := 0 }.Ok ∧ rl'.next = rl.next ∧
      rl'.len = k ∧ { rl' with next := 0 }.unread = rl.fd.bytes ∧ (k = 0 → rl.fd = []) := by
  obtain ⟨bs, fd', hr, hc, happ, -, hnil⟩ := read_clean (n := RL_MAX_BUF) (by decide) h.clean
  refine ⟨bs.length, { rl with fd := fd', buf := bs ++ rl.buf.drop bs.length, len := bs.length },
    by simp only [fill, hr], ⟨hc, Int.natCast_nonneg _, ?_⟩, rfl, rfl, ?_, ?_⟩
  · simp only [List.length_append]
    omega
  · simp [ReadLineBuf.unread, happ]
  · intro hk
    exact hnil (List.eq_nil_of_length_eq_zero hk)

theorem ReadLineBuf.getc_nil {rl : ReadLineBuf} (h : rl.Ok) (hu : rl.unread = []) :
    ∃ rl', rl.getc = (.ok none, rl') ∧ rl'.Ok ∧ rl'.unread = [] := by
  have hnext : rl.len ≤ rl.next := by
    by_contra hlt
    rw [unread_of_lt h (by omega)] at hu
    cases hu
  obtain ⟨k, rl', hf, hok, hn, hlen, hun, -⟩ := fill_spec h
  rw [← unread_of_le hnext, hu] at hun
  obtain rfl : k = 0 := by
    by_contra hk
    rw [unread_of_lt hok (by simp only [hlen]; omega)] at hun
    cases hun
  refine ⟨rl', by simp only [getc, if_pos hnext, hf], ⟨hok.clean, hok.nonneg, hok.len_le⟩, ?_⟩
  rw [unread_of_le (by omega)]
  exact (List.append_eq_nil_iff.mp hun).2

theorem ReadLineBuf.getc_cons {rl : ReadLineBuf} {c : UInt8} {cs : List UInt8} (h : rl.Ok)
    (hu : rl.unread = c :: cs) :
    ∃ rl', rl.getc = (.ok (some c), rl') ∧ rl'.Ok ∧ rl'.unread = cs := by
  by_cases hnext : rl.len ≤ rl.next
  · obtain ⟨k, rl', hf, hok, hn, hlen, hun, hk⟩ := fill_spec h
    rw [← unread_of_le hnext, hu] at hun
    cases k with
    | zero =>
      rw [unread_of_le hnext, hk rfl] at hu
      cases hu
    | succ k =>
      obtain ⟨c', rl'', hfetch, hok', hun'⟩ := fetch_spec hok (by simp only [hlen]; omega)
      rw [hun] at hun'
      obtain ⟨rfl, rfl⟩ := List.cons.inj hun'
      exact ⟨rl'', by simp only [getc, if_pos hnext, hf, hfetch], hok', rfl⟩
  · obtain ⟨c', rl', hfetch, hok', hun'⟩ := fetch_spec h (by omega)
    rw [hu] at hun'
    obtain ⟨rfl, rfl⟩ := List.cons.inj hun'
    exact ⟨rl', by simp only [getc, if_neg hnext, hfetch], hok', rfl⟩

/-! ### One line -/

/-- Storing one more byte of a line that is cut after `m` bytes. -/
theorem store_eq_take {m : Nat} {buf : List UInt8} (h : buf.length ≤ m) (c : UInt8) :
    (if buf.length < m then buf ++ [c] else buf) = (buf ++ [c]).take m := by
  split
  · rename_i hlt
    rw [List.take_of_length_le]
    rw [List.length_append, List.length_singleton]
    exact hlt
  · rename_i hge
    rw [List.take_append_of_le_length (by omega), List.take_of_length_le (by omega)]

theorem take_take_append {m : Nat} (l l' : List UInt8) :
    ((l.take m) ++ l').take m = (l ++ l').take m := by
  rw [List.take_append, List.take_append, List.take_take, Nat.min_self, List.length_take]
  congr 2
  omega

theorem readLine_loop_spec {n : Nat} {buf : List UInt8} {fd : Fd} (h : Fd.Clean fd)
    (hbuf : buf.length ≤ n - 1) :
    ∃ t fd', readLine.loop n buf fd =
        (⟨.ok ((buf ++ (splitLine fd.bytes).1).take (n - 1)).length,
          (buf ++ (splitLine fd.bytes).1).take (n - 1), t⟩, fd') ∧
      Fd.Clean fd' ∧ Fd.bytes fd' = (splitLine fd.bytes).2 := by
  induction hb : Fd.bytes fd generalizing buf fd with
  | nil =>
    rw [readLine.loop_eof (read_one_nil h hb)]
    simp only [splitLine, List.append_nil, List.take_of_length_le hbuf]
    exact ⟨_, [], rfl, by simp [Fd.Clean], rfl⟩
  | cons c cs ih =>
    obtain ⟨fd', hr, hc, hb'⟩ := read_one_cons h hb
    rw [readLine.loop_byte hr]
    simp only [store_eq_take hbuf, splitLine]
    split
    · exact ⟨true, fd', rfl, hc, hb'⟩
    · obtain ⟨t, fd'', hl, hc', hb''⟩ := ih hc
        (List.length_take_le (n - 1) (buf ++ [c])) hb'
      refine ⟨t, fd'', ?_, hc', hb''⟩
      rw [hl, take_take_append, List.append_assoc, List.singleton_append]

theorem readLineBuf_loop_spec {n : Nat} {buffer : List UInt8} {rl : ReadLineBuf} (h : rl.Ok)
    (hbuf : buffer.length ≤ n) :
    ∃ t rl', readLineBuf.loop n buffer rl =
        (⟨.ok ((buffer ++ (splitLine rl.unread).1).take n).length,
          (buffer ++ (splitLine rl.unread).1).take n, t⟩, rl') ∧
      rl'.Ok ∧ rl'.unread = (splitLine rl.unread).2 := by
  induction hu : rl.unread generalizing buffer rl with
  | nil =>
    obtain ⟨rl', hg, hok, hu'⟩ := ReadLineBuf.getc_nil h hu
    rw [readLineBuf.loop_eof hg]
    simp only [splitLine, List.append_nil, List.take_of_length_le hbuf]
    exact ⟨false, rl', rfl, hok, hu'⟩
  | cons c cs ih =>
    obtain ⟨rl', hg, hok, hu'⟩ := ReadLineBuf.getc_cons h hu
    rw [readLineBuf.loop_byte hg]
    simp only [store_eq_take hbuf, splitLine]
    split
    · exact ⟨false, rl', rfl, hok, hu'⟩
    · obtain ⟨t, rl'', hl, hok', hu''⟩ := ih hok
        (List.length_take_le n (buffer ++ [c])) hu'
      refine ⟨t, rl'', ?_, hok', hu''⟩
      rw [hl, take_take_append, List.append_assoc, List.singleton_append]

/-- `readLine` takes a line off the input and stores all of it that fits. -/
theorem readLine_spec {n : Nat} {fd : Fd} (h : Fd.Clean fd) (hn : 1 ≤ n) :
    ∃ t fd', readLine fd n = (⟨.ok ((splitLine fd.bytes).1.take (n - 1)).length,
        (splitLine fd.bytes).1.take (n - 1), t⟩, fd') ∧
      Fd.Clean fd' ∧ Fd.bytes fd' = (splitLine fd.bytes).2 := by
  rw [readLine, if_neg (by omega)]
  exact readLine_loop_spec h (Nat.zero_le _)

theorem readLineBuf_spec {n : Nat} {rl : ReadLineBuf} (h : rl.Ok) (hn : 1 ≤ n) :
    ∃ t rl', readLineBuf rl n = (⟨.ok ((splitLine rl.unread).1.take n).length,
        (splitLine rl.unread).1.take n, t⟩, rl') ∧
      rl'.Ok ∧ rl'.unread = (splitLine rl.unread).2 := by
  rw [readLineBuf, if_neg (by omega)]
  exact readLineBuf_loop_spec h (Nat.zero_le _)

/-! ### Sequences of calls -/

/-- Calls of `readLine` with buffers of the given sizes. -/
def readLineCalls (fd : Fd) : List Nat → List Result × Fd
  | [] => ([], fd)
  | n :: ns =>
    let (r, fd) := readLine fd n
    let (rs, fd) := readLineCalls fd ns
    (r :: rs, fd)

/-- Calls of `readLineBuf` with buffers of the given sizes. -/
def readLineBufCalls (rl : ReadLineBuf) : List Nat → List Result × ReadLineBuf
  | [] => ([], rl)
  | n :: ns =>
    let (r, rl) := readLineBuf rl n
    let (rs, rl) := readLineBufCalls rl ns
    (r :: rs, rl)

/-- The count that a call returns and the bytes that it stores, without the null byte. -/
def Result.line (r : Result) : Except Errno Nat × List UInt8 := (r.ret, r.stored)

theorem calls_agree {rl : ReadLineBuf} {fd : Fd} (hrl : rl.Ok) (hfd : Fd.Clean fd)
    (heq : rl.unread = fd.bytes) {ns : List Nat} (hns : ∀ n ∈ ns, 1 ≤ n) :
    (readLineBufCalls rl ns).1.map Result.line =
        (readLineCalls fd (ns.map (· + 1))).1.map Result.line ∧
      (readLineBufCalls rl ns).2.unread = Fd.bytes (readLineCalls fd (ns.map (· + 1))).2 := by
  induction ns generalizing rl fd with
  | nil => exact ⟨rfl, heq⟩
  | cons n ns ih =>
    obtain ⟨t, rl', hbuf, hrl', hu⟩ := readLineBuf_spec hrl (hns n List.mem_cons_self)
    obtain ⟨t', fd', hline, hfd', hb⟩ := readLine_spec hfd (Nat.le_add_left 1 n)
    rw [heq] at hbuf hu
    obtain ⟨h₁, h₂⟩ := ih hrl' hfd' (hu.trans hb.symm)
      fun m hm => hns m (List.mem_cons_of_mem _ hm)
    simp only [readLineBufCalls, readLineCalls, List.map_cons, hbuf, hline, Nat.add_sub_cancel]
    exact ⟨by rw [h₁]; rfl, h₂⟩

/-- Both functions give their caller the same lines and leave the same input unread, however the
input is cut into blocks. -/
theorem readLineBuf_agrees (blocks : List (List UInt8)) (buf : List UInt8)
    (hblocks : ∀ b ∈ blocks, 1 ≤ b.length ∧ b.length ≤ RL_MAX_BUF) (ns : List Nat)
    (hns : ∀ n ∈ ns, 1 ≤ n) :
    (readLineBufCalls (readLineBufInit (blocks.map .data) buf) ns).1.map Result.line =
        (readLineCalls (blocks.map .data) (ns.map (· + 1))).1.map Result.line ∧
      (readLineBufCalls (readLineBufInit (blocks.map .data) buf) ns).2.unread =
        Fd.bytes (readLineCalls (blocks.map .data) (ns.map (· + 1))).2 := by
  have hclean : Fd.Clean (blocks.map .data) := by
    intro r hr
    obtain ⟨b, hb, rfl⟩ := List.mem_map.mp hr
    exact ⟨b, List.length_pos_iff.mp (hblocks b hb).1, rfl⟩
  exact calls_agree (.init hclean buf) hclean (ReadLineBuf.unread_of_le (Int.le_refl 0)) hns

/-- Two lines and an unfinished one in blocks of up to ten bytes, read with room for two bytes. -/
theorem readLineBuf_agrees_cut_lines :
    (readLineBufCalls (readLineBufInit ([[97, 98, 99], [10, 100], [10, 101]].map .data) []) [2, 2, 2,
          2]).1.map Result.line =
        (readLineCalls ([[97, 98, 99], [10, 100], [10, 101]].map .data) [3, 3, 3, 3]).1.map
          Result.line ∧
      (readLineBufCalls (readLineBufInit ([[97, 98, 99], [10, 100], [10, 101]].map .data) []) [2, 2,
          2, 2]).2.unread =
        Fd.bytes (readLineCalls ([[97, 98, 99], [10, 100], [10, 101]].map .data) [3, 3, 3, 3]).2 :=
  readLineBuf_agrees [[97, 98, 99], [10, 100], [10, 101]] [] (by decide) [2, 2, 2, 2] (by decide)

end Tlpi.ReadLine
