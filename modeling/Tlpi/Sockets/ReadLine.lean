import Mathlib.Data.List.Basic

/-!
# Reading lines (`sockets/read_line.c`, `sockets/read_line_buf.c`)

`readLine` fetches its input byte by byte, `readLineBuf` in blocks that it keeps between calls.
A descriptor is the list of results that its `read` calls are going to have; a `read` that asks
for less than the next block leaves the rest of the block to the following one. After the last
result `read` returns end-of-file, any number of times.
-/

namespace Tlpi.ReadLine

abbrev Errno := Nat

def EINTR : Errno := 4

def EINVAL : Errno := 22

def newline : UInt8 := 10

/-- The outcome of a `read` that does not ask for fewer bytes than there are. -/
inductive ReadResult
  | data (bytes : List UInt8)
  | err (errno : Errno)
  deriving DecidableEq, Repr

abbrev Fd := List ReadResult

/-- `read(fd, buf, n)`: the bytes read (none at end-of-file) or an error. -/
def read (n : Nat) : Fd → Except Errno (List UInt8) × Fd
  | [] => (.ok [], [])
  | .err e :: fd => (.error e, fd)
  | .data bs :: fd => (.ok (bs.take n), if bs.length ≤ n then fd else .data (bs.drop n) :: fd)

/-- A bound on the number of `read` calls before the end of the input. -/
def Fd.size : Fd → Nat
  | [] => 0
  | .err _ :: fd => size fd + 1
  | .data bs :: fd => size fd + bs.length + 1

/-- What a call gives to its caller: the return value (-1 with `errno` is an error), the bytes that
it placed in the buffer, and whether it placed a null byte after them. -/
structure Result where
  ret : Except Errno Nat
  stored : List UInt8
  terminated : Bool

theorem size_read_error {n : Nat} {fd fd' : Fd} {e : Errno} (h : read n fd = (.error e, fd')) :
    Fd.size fd' < Fd.size fd := by
  cases fd with
  | nil => cases h
  | cons r fd =>
    cases r with
    | err => cases h; exact Nat.lt_succ_self _
    | data => cases h

theorem size_read_ok {n : Nat} {fd fd' : Fd} {bs : List UInt8} (h : read n fd = (.ok bs, fd'))
    (hne : bs ≠ []) : Fd.size fd' + bs.length ≤ Fd.size fd := by
  cases fd with
  | nil => cases h; exact absurd rfl hne
  | cons r fd =>
    cases r with
    | err => cases h
    | data cs =>
      cases h
      simp only [Fd.size, List.length_take]
      split
      · omega
      · simp only [Fd.size, List.length_drop]; omega

/-- The loop of `readLine`; `buf` holds the `totRead` bytes stored so far. -/
def readLine.loop (n : Nat) (buf : List UInt8) (fd : Fd) : Result × Fd :=
  match _h : read 1 fd with
  | (.error e, fd') =>
    if e = EINTR then loop n buf fd' -- interrupted: restart read()
    else (⟨.error e, buf, false⟩, fd')
  | (.ok [], fd') =>
    if buf.length = 0 then (⟨.ok 0, buf, false⟩, fd') -- no bytes read; return 0
    else (⟨.ok buf.length, buf, true⟩, fd')
  | (.ok (ch :: _), fd') =>
    let buf := if buf.length < n - 1 then buf ++ [ch] else buf
    if ch = newline then (⟨.ok buf.length, buf, true⟩, fd')
    else loop n buf fd'
termination_by Fd.size fd
decreasing_by
  · exact size_read_error _h
  · have := size_read_ok _h (by simp)
    simp only [List.length_cons] at this
    omega

theorem readLine.loop_eof {n : Nat} {buf : List UInt8} {fd fd' : Fd}
    (h : read 1 fd = (.ok [], fd')) :
    readLine.loop n buf fd = (⟨.ok buf.length, buf, buf.length ≠ 0⟩, fd') := by
  rw [readLine.loop]
  split <;> rename_i h' <;> rw [h] at h' <;> cases h'
  split
  · rename_i h0
    simp [h0]
  · rename_i h0
    simp [h0]

theorem readLine.loop_byte {n : Nat} {buf : List UInt8} {fd fd' : Fd} {c : UInt8}
    {cs : List UInt8} (h : read 1 fd = (.ok (c :: cs), fd')) : readLine.loop n buf fd =
      let buf := if buf.length < n - 1 then buf ++ [c] else buf
      if c = newline then (⟨.ok buf.length, buf, true⟩, fd') else readLine.loop n buf fd' := by
  rw [readLine.loop]
  split <;> rename_i h' <;> rw [h] at h' <;> cases h'
  rfl

def readLine (fd : Fd) (n : Nat) : Result × Fd :=
  if n = 0 then (⟨.error EINVAL, [], false⟩, fd) else readLine.loop n [] fd

def RL_MAX_BUF : Nat := 10

/-- `next` is the index of the next unread character in `buf`, and `len` the number of characters in
`buf`, -1 after a failed read. -/
structure ReadLineBuf where
  fd : Fd
  buf : List UInt8
  next : Nat
  len : Int
  deriving DecidableEq, Repr

/-- The caller's structure, with whatever its buffer held before. -/
def readLineBufInit (fd : Fd) (buf : List UInt8) : ReadLineBuf := ⟨fd, buf, 0, 0⟩

/-- `read(rlbuf->fd, rlbuf->buf, RL_MAX_BUF)` overwrites the first bytes of the buffer. -/
def ReadLineBuf.fill (rl : ReadLineBuf) : Except Errno Nat × ReadLineBuf :=
  match read RL_MAX_BUF rl.fd with
  | (.error e, fd) => (.error e, { rl with fd, len := -1 })
  | (.ok bs, fd) =>
    (.ok bs.length, { rl with fd, buf := bs ++ rl.buf.drop bs.length, len := bs.length })

/-- The head of the loop of `readLineBuf`: when there are insufficient characters in the buffer,
further input is obtained; the next character, none at end-of-file. -/
def ReadLineBuf.getc (rl : ReadLineBuf) : Except Errno (Option UInt8) × ReadLineBuf :=
  if rl.len ≤ rl.next then
    match rl.fill with
    | (.error e, rl) => (.error e, rl)
    | (.ok 0, rl) => (.ok none, rl)
    | (.ok _, rl) => fetch { rl with next := 0 }
  else fetch rl
where
  fetch (rl : ReadLineBuf) : Except Errno (Option UInt8) × ReadLineBuf :=
    (.ok (some (rl.buf.getD rl.next 0)), { rl with next := rl.next + 1 })

/-- A bound on the number of bytes still to come. -/
def ReadLineBuf.size (rl : ReadLineBuf) : Nat := (rl.len - rl.next).toNat + Fd.size rl.fd

theorem ReadLineBuf.size_fill {rl rl' : ReadLineBuf} {k : Nat} (h : rl.fill = (.ok k, rl'))
    (hk : k ≠ 0) : rl'.len = k ∧ k + Fd.size rl'.fd ≤ Fd.size rl.fd := by
  unfold ReadLineBuf.fill at h
  split at h
  · cases h
  · rename_i bs fd' hr
    cases h
    have := size_read_ok hr (by rintro rfl; exact hk rfl)
    exact ⟨rfl, by simp only; omega⟩

theorem ReadLineBuf.size_getc {rl rl' : ReadLineBuf} {c : UInt8}
    (h : rl.getc = (.ok (some c), rl')) : rl'.size < rl.size := by
  unfold ReadLineBuf.getc at h
  split at h
  · rename_i hnext
    split at h
    · cases h
    · cases h
    · rename_i k rl₁ hk hf
      obtain ⟨h₁, h₂⟩ := ReadLineBuf.size_fill hf hk
      have : 0 < k := Nat.pos_of_ne_zero hk
      cases h
      simp only [ReadLineBuf.size, h₁]
      omega
  · cases h
    simp only [ReadLineBuf.size]
    omega

/-- The loop of `readLineBuf`; `buffer` holds the `cnt` bytes stored so far. -/
def readLineBuf.loop (n : Nat) (buffer : List UInt8) (rl : ReadLineBuf) : Result × ReadLineBuf :=
  match _h : rl.getc with
  | (.error e, rl) => (⟨.error e, buffer, false⟩, rl)
  | (.ok none, rl) => (⟨.ok buffer.length, buffer, false⟩, rl)
  | (.ok (some c), rl') =>
    let buffer := if buffer.length < n then buffer ++ [c] else buffer
    if c = newline then (⟨.ok buffer.length, buffer, false⟩, rl')
    else loop n buffer rl'
termination_by rl.size
decreasing_by exact ReadLineBuf.size_getc _h

theorem readLineBuf.loop_eof {n : Nat} {buffer : List UInt8} {rl rl' : ReadLineBuf}
    (h : rl.getc = (.ok none, rl')) :
    readLineBuf.loop n buffer rl = (⟨.ok buffer.length, buffer, false⟩, rl') := by
  rw [readLineBuf.loop]
  split <;> rename_i h' <;> rw [h] at h' <;> cases h'
  rfl

theorem readLineBuf.loop_byte {n : Nat} {buffer : List UInt8} {rl rl' : ReadLineBuf} {c : UInt8}
    (h : rl.getc = (.ok (some c), rl')) : readLineBuf.loop n buffer rl =
      let buffer := if buffer.length < n then buffer ++ [c] else buffer
      if c = newline then (⟨.ok buffer.length, buffer, false⟩, rl')
      else readLineBuf.loop n buffer rl' := by
  rw [readLineBuf.loop]
  split <;> rename_i h' <;> rw [h] at h' <;> cases h'
  rfl

def readLineBuf (rl : ReadLineBuf) (n : Nat) : Result × ReadLineBuf :=
  if n = 0 then (⟨.error EINVAL, [], false⟩, rl) else readLineBuf.loop n [] rl

end Tlpi.ReadLine
