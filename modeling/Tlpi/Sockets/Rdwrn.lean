import Tlpi.Lib.CBuf
import Tlpi.Sockets.ReadLineLemmas

/-!
# Transfers of exactly `n` bytes (`sockets/rdwrn.c`)

`readn` and `writen` repeat `read` and `write` until all of the caller's bytes are transferred. The
input is the list of results of its `read` calls, as for `readLine`; the output carries the results
of its `write` calls and the bytes that have been written. A buffer is part of one object and has
fewer than `2 ^ 63` bytes, so the conversion of a count to `ssize_t` keeps it.
-/

namespace Tlpi.Rdwrn
open ReadLine

inductive WriteResult
  | bytes (k : Nat)
  | err (errno : Errno)
  deriving DecidableEq, Repr

/-- After the last of its `results` each `write` transfers all that it is given. -/
structure OutFd where
  results : List WriteResult
  written : List UInt8
  deriving DecidableEq, Repr

/-- `write(fd, bs)`: the number of bytes transferred or an error. -/
def write (bs : List UInt8) (fd : OutFd) : Except Errno Nat × OutFd :=
  match fd.results with
  | [] => (.ok bs.length, { fd with written := fd.written ++ bs })
  | .err e :: rs => (.error e, { fd with results := rs })
  | .bytes k :: rs => (.ok (min k bs.length), ⟨rs, fd.written ++ bs.take k⟩)

/-- The loop of `readn`: `buf` is the address for the next byte. -/
def readn.loop (n : Nat) (mem : Mem) (buf totRead : Nat) (fd : Fd) :
    Except Errno Nat × Mem × Fd :=
  if totRead < n then
    match _h : read (n - totRead) fd with
    | (.error e, fd') =>
      if e = EINTR then loop n mem buf totRead fd' -- interrupted: restart read()
      else (.error e, mem, fd')
    | (.ok [], fd') => (.ok totRead, mem, fd') -- may be 0 if this is first read()
    | (.ok (b :: bs), fd') =>
      loop n (mem.store buf (b :: bs)) (buf + (b :: bs).length) (totRead + (b :: bs).length) fd'
  else (.ok totRead, mem, fd)
termination_by Fd.size fd
decreasing_by
  · exact size_read_error _h
  · have := size_read_ok _h (by simp)
    simp only [List.length_cons] at this
    omega

def readn (fd : Fd) (mem : Mem) (buffer n : Nat) : Except Errno Nat × Mem × Fd :=
  readn.loop n mem buffer 0 fd

/-- `ret` is `none` for the return value -1; a `write` of 0 bytes leaves `errno` as it was. -/
structure Writen where
  ret : Option Nat
  errno : Errno
  fd : OutFd
  deriving DecidableEq, Repr

theorem write_error {bs : List UInt8} {fd fd' : OutFd} {e : Errno}
    (h : write bs fd = (.error e, fd')) :
    fd.results = .err e :: fd'.results ∧ fd'.written = fd.written := by
  unfold write at h
  split at h
  · cases h
  · rename_i hr
    cases h
    exact ⟨hr, rfl⟩
  · cases h

theorem write_ok {bs : List UInt8} {fd fd' : OutFd} {k : Nat} (h : write bs fd = (.ok k, fd')) :
    k ≤ bs.length ∧ fd'.written = fd.written ++ bs.take k ∧
      (fd.results = [] ∧ k = bs.length ∧ fd'.results = [] ∨
        ∃ j, fd.results = .bytes j :: fd'.results ∧ k = min j bs.length) := by
  unfold write at h
  split at h
  · rename_i hr
    cases h
    exact ⟨Nat.le_refl _, by simp, .inl ⟨hr, rfl, hr⟩⟩
  · cases h
  · rename_i j rs hr
    cases h
    refine ⟨Nat.min_le_right .., ?_, .inr ⟨j, hr, rfl⟩⟩
    rw [← List.take_take, List.take_length]

/-- The loop of `writen`: `buf` is the address of the next byte. -/
def writen.loop (n : Nat) (mem : Mem) (buf totWritten : Nat) (errno : Errno) (fd : OutFd) :
    Writen :=
  if _hlt : totWritten < n then
    match _h : write (mem.load buf (n - totWritten)) fd with
    | (.error e, fd') =>
      if e = EINTR then loop n mem buf totWritten e fd' -- interrupted: restart write()
      else ⟨none, e, fd'⟩
    | (.ok 0, fd') => ⟨none, errno, fd'⟩ -- should never happen
    | (.ok (k + 1), fd') => loop n mem (buf + (k + 1)) (totWritten + (k + 1)) errno fd'
  else ⟨some totWritten, errno, fd⟩
termination_by n - totWritten + fd.results.length
decreasing_by
  · rw [(write_error _h).1, List.length_cons]
    omega
  · obtain ⟨-, -, ⟨h₁, -, h₂⟩ | ⟨j, h₁, -⟩⟩ := write_ok _h
    · rw [h₁, h₂]
      omega
    · rw [h₁, List.length_cons]
      omega

def writen (fd : OutFd) (mem : Mem) (buffer n : Nat) (errno : Errno) : Writen :=
  writen.loop n mem buffer 0 errno fd

/-! ### Reading -/

/-- After the results `pre` a `read` returned end-of-file, with `fd'` still to come. -/
def EofAfter (fd pre fd' : Fd) : Prop := fd = pre ++ .data [] :: fd' ∨ fd = pre ∧ fd' = []

theorem EofAfter.cons {fd pre fd' : Fd} (h : EofAfter fd pre fd') (r : ReadResult) :
    EofAfter (r :: fd) (r :: pre) fd' := by
  rcases h with rfl | ⟨rfl, rfl⟩
  · exact .inl rfl
  · exact .inr ⟨rfl, rfl⟩

@[simp] theorem bytes_err_cons (e : Errno) (fd : Fd) : Fd.bytes (.err e :: fd) = Fd.bytes fd := rfl

theorem read_error {n : Nat} {fd fd' : Fd} {e : Errno} (h : read n fd = (.error e, fd')) :
    fd = .err e :: fd' := by
  cases fd with
  | nil => cases h
  | cons r fd =>
    cases r with
    | err => cases h; rfl
    | data => cases h

/-- A `read` of `n` bytes ends the block it takes them from, or returns all that was asked for. -/
theorem read_ok {n : Nat} {fd fd' : Fd} {bs : List UInt8} (h : read n fd = (.ok bs, fd')) :
    bs.length ≤ n ∧ Fd.bytes fd = bs ++ Fd.bytes fd' ∧
      (fd = [] ∧ bs = [] ∧ fd' = [] ∨ fd = .data bs :: fd' ∨
        bs.length = n ∧ ∃ cs fd₁, fd = .data cs :: fd₁ ∧ bs = cs.take n ∧ n < cs.length ∧
          fd' = .data (cs.drop n) :: fd₁) := by
  cases fd with
  | nil => cases h; exact ⟨Nat.zero_le _, rfl, .inl ⟨rfl, rfl, rfl⟩⟩
  | cons r fd =>
    cases r with
    | err => cases h
    | data cs =>
      cases h
      refine ⟨List.length_take_le .., ?_, .inr ?_⟩
      · split
        · rename_i hle
          rw [Fd.bytes_cons, List.take_of_length_le hle]
        · rw [Fd.bytes_cons, Fd.bytes_cons, ← List.append_assoc, List.take_append_drop]
      · split
        · rename_i hle
          exact .inl (by rw [List.take_of_length_le hle])
        · rename_i hlt
          exact .inr ⟨by rw [List.length_take]; omega, cs, fd, rfl, rfl, by omega, rfl⟩

/-- What `readn` has done when it returns: `bs` are the bytes stored, `ret` counts from the
`totRead` bytes read before. -/
def Readn (n totRead : Nat) (fd fd' : Fd) (bs : List UInt8) : Except Errno Nat → Prop
  | .ok k => k = totRead + bs.length ∧
    (k < n → ∃ pre, (Fd.bytes pre).length = bs.length ∧ EofAfter fd pre fd')
  | .error e => e ≠ EINTR ∧ ∃ pre, fd = pre ++ .err e :: fd'

theorem Readn.cons {n totRead : Nat} {fd fd' : Fd} {bs cs : List UInt8} {r : ReadResult}
    {ret : Except Errno Nat} (h : Readn n (totRead + cs.length) fd fd' bs ret)
    (hr : Fd.bytes (r :: fd) = cs ++ Fd.bytes fd) :
    Readn n totRead (r :: fd) fd' (cs ++ bs) ret := by
  cases ret with
  | ok k =>
    obtain ⟨rfl, heof⟩ := h
    refine ⟨by rw [List.length_append]; omega, fun hlt => ?_⟩
    obtain ⟨pre, hlen, heof⟩ := heof hlt
    refine ⟨r :: pre, ?_, heof.cons r⟩
    have hcons : ∀ l, Fd.bytes (r :: l) = Fd.bytes [r] ++ Fd.bytes l :=
      fun l => by simp [Fd.bytes]
    rw [hcons] at hr ⊢
    rw [List.append_cancel_right hr, List.length_append, List.length_append, hlen]
  | error e =>
    obtain ⟨hne, pre, rfl⟩ := h
    exact ⟨hne, r :: pre, rfl⟩

theorem readn.loop_spec (n : Nat) (mem : Mem) (buf totRead : Nat) (fd : Fd) (hle : totRead ≤ n) :
    ∃ ret bs fd', readn.loop n mem buf totRead fd = (ret, mem.store buf bs, fd') ∧
      totRead + bs.length ≤ n ∧ Fd.bytes fd = bs ++ Fd.bytes fd' ∧
      Readn n totRead fd fd' bs ret := by
  fun_induction readn.loop n mem buf totRead fd with
  | case1 mem buf totRead fd hlt fd' h ih =>
    obtain ⟨ret, bs, fd'', heq, hbs, hbytes, hspec⟩ := ih hle
    rw [read_error h]
    exact ⟨ret, bs, fd'', heq, hbs, hbytes, hspec.cons rfl⟩
  | case2 mem buf totRead fd hlt e fd' h hne =>
    refine ⟨.error e, [], fd', by rw [Mem.store_nil], hle, ?_, hne, [], read_error h⟩
    rw [read_error h]
    rfl
  | case3 mem buf totRead fd hlt fd' h =>
    obtain ⟨-, hbytes, hfd⟩ := read_ok h
    refine ⟨.ok totRead, [], fd', by rw [Mem.store_nil], hle, hbytes, rfl,
      fun _ => ⟨[], rfl, ?_⟩⟩
    rcases hfd with ⟨rfl, -, rfl⟩ | rfl | ⟨h0, -⟩
    · exact .inr ⟨rfl, rfl⟩
    · exact .inl rfl
    · exact absurd h0 (by simp only [List.length_nil]; omega)
  | case4 mem buf totRead fd hlt b bs fd' h ih =>
    obtain ⟨hlen, hbytes, hfd⟩ := read_ok h
    obtain ⟨ret, cs, fd'', heq, hcs, hbytes', hspec⟩ := ih (by omega)
    refine ⟨ret, (b :: bs) ++ cs, fd'', ?_, ?_, ?_, ?_⟩
    · rw [heq, Mem.store_store]
    · rw [List.length_append]
      omega
    · rw [hbytes, hbytes', List.append_assoc]
    · rcases hfd with ⟨-, hnil, -⟩ | rfl | ⟨hfull, ds, fd₁, rfl, hds, hlt', rfl⟩
      · cases hnil
      · exact hspec.cons hbytes
      · have hret : .ok (totRead + (b :: bs).length) = ret := by
          rw [readn.loop, if_neg (by omega)] at heq
          exact congrArg Prod.fst heq
        cases hret
        exact ⟨by rw [List.length_append]; omega, fun hlt => by omega⟩
  | case5 mem buf totRead fd hge =>
    exact ⟨.ok totRead, [], fd, by rw [Mem.store_nil], hle, rfl, rfl, fun hlt => absurd hlt hge⟩

/-! ### Interruptions -/

/-- The same input without its interruptions. -/
def uninterrupted (fd : Fd) : Fd := fd.filter (· ≠ .err EINTR)

theorem read_uninterrupted {n : Nat} {fd fd' : Fd} {r : Except Errno (List UInt8)}
    (h : read n fd = (r, fd')) (hr : r ≠ .error EINTR) :
    read n (uninterrupted fd) = (r, uninterrupted fd') := by
  cases fd with
  | nil => cases h; rfl
  | cons x fd =>
    cases x with
    | err e =>
      cases h
      have hne : ReadResult.err e ≠ .err EINTR := fun heq => hr (by cases heq; rfl)
      rw [uninterrupted, List.filter_cons_of_pos (by simpa using hne)]
      rfl
    | data bs =>
      cases h
      rw [uninterrupted, List.filter_cons_of_pos (by simp)]
      simp only [ReadLine.read]
      split
      · rfl
      · rw [uninterrupted, List.filter_cons_of_pos (by simp)]

theorem readn.loop_done {n : Nat} {mem : Mem} {buf totRead : Nat} {fd : Fd} (h : ¬totRead < n) :
    readn.loop n mem buf totRead fd = (.ok totRead, mem, fd) := by
  rw [readn.loop, if_neg h]

theorem readn.loop_error {n : Nat} {mem : Mem} {buf totRead : Nat} {fd fd' : Fd} {e : Errno}
    (hlt : totRead < n) (h : read (n - totRead) fd = (.error e, fd')) (he : e ≠ EINTR) :
    readn.loop n mem buf totRead fd = (.error e, mem, fd') := by
  rw [readn.loop, if_pos hlt]
  split <;> rename_i h' <;> rw [h] at h' <;> cases h'
  rw [if_neg he]

theorem readn.loop_eof {n : Nat} {mem : Mem} {buf totRead : Nat} {fd fd' : Fd}
    (hlt : totRead < n) (h : read (n - totRead) fd = (.ok [], fd')) :
    readn.loop n mem buf totRead fd = (.ok totRead, mem, fd') := by
  rw [readn.loop, if_pos hlt]
  split <;> rename_i h' <;> rw [h] at h' <;> cases h'
  rfl

theorem readn.loop_bytes {n : Nat} {mem : Mem} {buf totRead : Nat} {fd fd' : Fd} {b : UInt8}
    {bs : List UInt8} (hlt : totRead < n) (h : read (n - totRead) fd = (.ok (b :: bs), fd')) :
    readn.loop n mem buf totRead fd =
      readn.loop n (mem.store buf (b :: bs)) (buf + (b :: bs).length)
        (totRead + (b :: bs).length) fd' := by
  rw [readn.loop, if_pos hlt]
  split <;> rename_i h' <;> rw [h] at h' <;> cases h'
  rfl

theorem readn.loop_uninterrupted (n : Nat) (mem : Mem) (buf totRead : Nat) (fd : Fd) :
    readn.loop n mem buf totRead (uninterrupted fd) =
      (fun r => (r.1, r.2.1, uninterrupted r.2.2)) (readn.loop n mem buf totRead fd) := by
  fun_induction readn.loop n mem buf totRead fd with
  | case1 mem buf totRead fd hlt fd' h ih =>
    rw [read_error h, ← ih]
    rfl
  | case2 mem buf totRead fd hlt e fd' h hne =>
    exact loop_error hlt (read_uninterrupted h fun heq => hne (by cases heq; rfl)) hne
  | case3 mem buf totRead fd hlt fd' h =>
    exact loop_eof hlt (read_uninterrupted h nofun)
  | case4 mem buf totRead fd hlt b bs fd' h ih =>
    rw [loop_bytes hlt (read_uninterrupted h nofun), ih]
  | case5 mem buf totRead fd hge =>
    exact loop_done hge

/-! ### Writing -/

def OutFd.uninterrupted (fd : OutFd) : OutFd :=
  { fd with results := fd.results.filter (· ≠ .err EINTR) }

theorem write_uninterrupted {bs : List UInt8} {fd fd' : OutFd} {r : Except Errno Nat}
    (h : write bs fd = (r, fd')) (hr : r ≠ .error EINTR) :
    write bs fd.uninterrupted = (r, fd'.uninterrupted) := by
  obtain ⟨results, written⟩ := fd
  cases results with
  | nil => cases h; rfl
  | cons x rs =>
    cases x with
    | err e =>
      cases h
      have hne : WriteResult.err e ≠ .err EINTR := fun heq => hr (by cases heq; rfl)
      rw [OutFd.uninterrupted, List.filter_cons_of_pos (by simpa using hne)]
      rfl
    | bytes k =>
      cases h
      rw [OutFd.uninterrupted, List.filter_cons_of_pos (by simp)]
      rfl

/-- What `writen` has done when it returns: `k` of the bytes `bs` have been written. -/
structure WritenSpec (n totWritten : Nat) (bs : List UInt8) (fd : OutFd) (w : Writen) (k : Nat) :
    Prop where
  written : w.fd.written = fd.written ++ bs.take k
  le : totWritten + k ≤ n
  ret_some : ∀ m, w.ret = some m → m = n ∧ totWritten + k = n
  ret_none : w.ret = none → totWritten + k < n ∧ ∃ pre r, fd.results = pre ++ r :: w.fd.results ∧
    (r = .bytes 0 ∨ r = .err w.errno ∧ w.errno ≠ EINTR)

theorem writen.loop_spec (n : Nat) (mem : Mem) (buf totWritten : Nat) (errno : Errno)
    (fd : OutFd) (hle : totWritten ≤ n) :
    ∃ k, WritenSpec n totWritten (mem.load buf (n - totWritten)) fd
      (writen.loop n mem buf totWritten errno fd) k := by
  fun_induction writen.loop n mem buf totWritten errno fd with
  | case1 buf totWritten errno fd hlt fd' h ih =>
    obtain ⟨k, hspec⟩ := ih hle
    obtain ⟨hres, hwr⟩ := write_error h
    refine ⟨k, by rw [hspec.written, hwr], hspec.le, hspec.ret_some, fun hret => ?_⟩
    obtain ⟨hlt, pre, r, hpre, hr⟩ := hspec.ret_none hret
    exact ⟨hlt, .err EINTR :: pre, r, by rw [hres, hpre]; rfl, hr⟩
  | case2 buf totWritten errno fd hlt e fd' h hne =>
    obtain ⟨hres, hwr⟩ := write_error h
    exact ⟨0, by simpa using hwr, hle, nofun,
      fun _ => ⟨hlt, [], _, hres, .inr ⟨rfl, hne⟩⟩⟩
  | case3 buf totWritten errno fd hlt fd' h =>
    obtain ⟨-, hwr, hres⟩ := write_ok h
    refine ⟨0, hwr, hle, nofun, fun _ => ⟨hlt, [], .bytes 0, ?_, .inl rfl⟩⟩
    rw [Mem.length_load] at hres
    rcases hres with ⟨-, h0, -⟩ | ⟨j, hres, hj⟩
    · omega
    · obtain rfl : j = 0 := by omega
      exact hres
  | case4 buf totWritten errno fd hlt k fd' h ih =>
    obtain ⟨hk, hwr, hres⟩ := write_ok h
    rw [Mem.length_load] at hk hres
    obtain ⟨m, hspec⟩ := ih (by omega)
    have hload : mem.load buf (n - totWritten) =
        mem.load buf (k + 1) ++ mem.load (buf + (k + 1)) (n - (totWritten + (k + 1))) := by
      rw [← Mem.load_add, show k + 1 + (n - (totWritten + (k + 1))) = n - totWritten by
        clear hres; omega]
    refine ⟨k + 1 + m, ?_, by have := hspec.le; omega, fun m' hm' => ?_, fun hret => ?_⟩
    · rw [hspec.written, hwr, hload, List.take_left' (Mem.length_load ..), List.append_assoc,
        ← List.take_length_add_append, Mem.length_load]
    · have := hspec.ret_some m' hm'
      omega
    · obtain ⟨hlt', pre, r, hpre, hr⟩ := hspec.ret_none hret
      refine ⟨by omega, ?_⟩
      rcases hres with ⟨-, h0, hres⟩ | ⟨j, hres, -⟩
      · rw [hres] at hpre
        cases pre <;> cases hpre
      · exact ⟨.bytes j :: pre, r, by rw [hres, hpre]; rfl, hr⟩
  | case5 buf totWritten errno fd hge =>
    obtain rfl : totWritten = n := by omega
    exact ⟨0, by simp, by omega, fun m hm => ⟨by cases hm; rfl, rfl⟩, nofun⟩

theorem writen.loop_done {n : Nat} {mem : Mem} {buf totWritten : Nat} {errno : Errno} {fd : OutFd}
    (h : ¬totWritten < n) :
    writen.loop n mem buf totWritten errno fd = ⟨some totWritten, errno, fd⟩ := by
  rw [writen.loop, dif_neg h]

theorem writen.loop_error {n : Nat} {mem : Mem} {buf totWritten : Nat} {errno e : Errno}
    {fd fd' : OutFd} (hlt : totWritten < n)
    (h : write (mem.load buf (n - totWritten)) fd = (.error e, fd')) (he : e ≠ EINTR) :
    writen.loop n mem buf totWritten errno fd = ⟨none, e, fd'⟩ := by
  rw [writen.loop, dif_pos hlt]
  split <;> rename_i h' <;> rw [h] at h' <;> cases h'
  rw [if_neg he]

theorem writen.loop_zero {n : Nat} {mem : Mem} {buf totWritten : Nat} {errno : Errno}
    {fd fd' : OutFd} (hlt : totWritten < n)
    (h : write (mem.load buf (n - totWritten)) fd = (.ok 0, fd')) :
    writen.loop n mem buf totWritten errno fd = ⟨none, errno, fd'⟩ := by
  rw [writen.loop, dif_pos hlt]
  split <;> rename_i h' <;> rw [h] at h' <;> cases h'
  rfl

theorem writen.loop_bytes {n : Nat} {mem : Mem} {buf totWritten : Nat} {errno : Errno}
    {fd fd' : OutFd} {k : Nat} (hlt : totWritten < n)
    (h : write (mem.load buf (n - totWritten)) fd = (.ok (k + 1), fd')) :
    writen.loop n mem buf totWritten errno fd =
      writen.loop n mem (buf + (k + 1)) (totWritten + (k + 1)) errno fd' := by
  rw [writen.loop, dif_pos hlt]
  split <;> rename_i h' <;> rw [h] at h' <;> cases h'
  rfl

theorem writen.loop_uninterrupted (n : Nat) (mem : Mem) (buf totWritten : Nat)
    (errno errno' : Errno) (fd : OutFd) :
    (writen.loop n mem buf totWritten errno' fd.uninterrupted).ret =
        (writen.loop n mem buf totWritten errno fd).ret ∧
      (writen.loop n mem buf totWritten errno' fd.uninterrupted).fd =
        (writen.loop n mem buf totWritten errno fd).fd.uninterrupted := by
  fun_induction writen.loop n mem buf totWritten errno fd with
  | case1 buf totWritten errno fd hlt fd' h ih =>
    obtain ⟨hres, hwr⟩ := write_error h
    have hfd : fd.uninterrupted = fd'.uninterrupted := by
      simp [OutFd.uninterrupted, hres, hwr]
    rw [hfd]
    exact ih
  | case2 buf totWritten errno fd hlt e fd' h hne =>
    rw [loop_error hlt (write_uninterrupted h fun heq => hne (by cases heq; rfl)) hne]
    exact ⟨rfl, rfl⟩
  | case3 buf totWritten errno fd hlt fd' h =>
    rw [loop_zero hlt (write_uninterrupted h nofun)]
    exact ⟨rfl, rfl⟩
  | case4 buf totWritten errno fd hlt k fd' h ih =>
    rw [loop_bytes hlt (write_uninterrupted h nofun)]
    exact ih
  | case5 buf totWritten errno fd hge =>
    rw [loop_done hge]
    exact ⟨rfl, rfl⟩

/-! ### Exact transfers -/

/-- What a return value of `readn` says of the transfer from `fd` to the `n` bytes at `buffer`. -/
structure ReadsExactly (fd : Fd) (mem : Mem) (buffer n : Nat) (ret : Except Errno Nat) (mem' : Mem)
    (fd' : Fd) : Prop where
  data : ∀ k, ret = .ok k → k ≤ n ∧ mem'.load buffer k = (Fd.bytes fd).take k ∧
    Fd.bytes fd' = (Fd.bytes fd).drop k ∧ ∀ a, a < buffer ∨ buffer + k ≤ a → mem' a = mem a
  eof : ∀ k, ret = .ok k → k < n → ∃ pre, (Fd.bytes pre).length = k ∧ EofAfter fd pre fd'
  error : ∀ e, ret = .error e → e ≠ EINTR ∧ ∃ pre, fd = pre ++ .err e :: fd'

/-- What a return value of `writen` says of the transfer of the `n` bytes `bs` to `fd`. -/
structure WritesExactly (fd : OutFd) (bs : List UInt8) (n : Nat) (w : Writen) : Prop where
  data : ∀ k, w.ret = some k → k = n ∧ w.fd.written = fd.written ++ bs
  error : w.ret = none → (∃ k < n, w.fd.written = fd.written ++ bs.take k) ∧
    ∃ pre r, fd.results = pre ++ r :: w.fd.results ∧
      (r = .bytes 0 ∨ r = .err w.errno ∧ w.errno ≠ EINTR)

theorem readn_readsExactly (fd : Fd) (mem : Mem) (buffer n : Nat) :
    ReadsExactly fd mem buffer n (readn fd mem buffer n).1 (readn fd mem buffer n).2.1
      (readn fd mem buffer n).2.2 := by
  obtain ⟨ret, bs, fd', heq, hle, hbytes, hspec⟩ :=
    readn.loop_spec n mem buffer 0 fd (Nat.zero_le n)
  rw [readn, heq]
  rw [Nat.zero_add] at hle
  refine ⟨?_, ?_, ?_⟩
  · rintro k rfl
    obtain ⟨rfl, -⟩ := hspec
    rw [Nat.zero_add, hbytes, List.take_left, List.drop_left]
    exact ⟨hle, Mem.load_store .., rfl, fun a ha => Mem.store_of_notMem ha⟩
  · rintro k rfl hlt
    obtain ⟨rfl, heof⟩ := hspec
    rw [Nat.zero_add]
    exact heof hlt
  · rintro e rfl
    exact hspec

theorem writen_writesExactly (fd : OutFd) (mem : Mem) (buffer n : Nat) (errno : Errno) :
    WritesExactly fd (mem.load buffer n) n (writen fd mem buffer n errno) := by
  obtain ⟨k, hspec⟩ := writen.loop_spec n mem buffer 0 errno fd (Nat.zero_le n)
  refine ⟨fun m hm => ?_, fun hret => ?_⟩
  · obtain ⟨rfl, hk⟩ := hspec.ret_some m hm
    refine ⟨rfl, hspec.written.trans ?_⟩
    rw [Nat.sub_zero, List.take_of_length_le (by rw [Mem.length_load]; omega)]
  · obtain ⟨hlt, hfail⟩ := hspec.ret_none hret
    exact ⟨⟨k, by omega, hspec.written⟩, hfail⟩

/-- `readn` and `writen` transfer the caller's bytes in order, stop short only at end-of-file or at
an error, and do not see interruptions. -/
theorem readn_writen_exact (fd : Fd) (out : OutFd) (mem : Mem) (buffer n : Nat) (errno : Errno) :
    ReadsExactly fd mem buffer n (readn fd mem buffer n).1 (readn fd mem buffer n).2.1
        (readn fd mem buffer n).2.2 ∧
      readn (uninterrupted fd) mem buffer n = ((readn fd mem buffer n).1,
        (readn fd mem buffer n).2.1, uninterrupted (readn fd mem buffer n).2.2) ∧
      WritesExactly out (mem.load buffer n) n (writen out mem buffer n errno) ∧
      (writen out.uninterrupted mem buffer n errno).ret = (writen out mem buffer n errno).ret ∧
      (writen out.uninterrupted mem buffer n errno).fd =
        (writen out mem buffer n errno).fd.uninterrupted :=
  ⟨readn_readsExactly fd mem buffer n, readn.loop_uninterrupted n mem buffer 0 fd,
    writen_writesExactly out mem buffer n errno, writen.loop_uninterrupted n mem buffer 0 ..⟩

/-- A read in three parts, interrupted once, with one byte of the last block left over. -/
example : (readn [.data [1, 2], .err EINTR, .data [3], .data [4, 5]] (fun _ => 0) 100 4).1 = .ok 4 ∧
    (readn [.data [1, 2], .err EINTR, .data [3], .data [4, 5]] (fun _ => 0) 100 4).2.2 =
      [.data [5]] := by
  simp [readn, readn.loop, ReadLine.read]

end Tlpi.Rdwrn
