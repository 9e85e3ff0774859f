import Tlpi.Lib.Files

/-!
# Copying a file in chunks (`copy.c`)

`copy` reads the old file in chunks of at most `BUF_SIZE` bytes and writes each one to the new file.
How many bytes a `read` delivers and how each call ends is given from outside.
-/

namespace Tlpi.Copy

abbrev CString := List Char

def BUF_SIZE : Nat := 1024

/-- How a program ends; `running` if what is given does not reach to its end. -/
inductive Status
  | success
  | error (msg : String)
  | running
  deriving DecidableEq, Repr

/-- A `read` delivers at most `n` bytes, but at least one before the end of the file. -/
inductive ReadResult
  | upTo (n : Nat)
  | fails
  deriving DecidableEq, Repr

/-- A `write` writes all bytes, or only the first ones. -/
inductive WriteResult
  | full
  | partly (n : Nat)
  | fails
  deriving DecidableEq, Repr

/-- The calls of `copy`. -/
structure Calls where
  openOld : Bool
  openNew : Bool
  transfers : List (ReadResult × WriteResult)
  closeInput : Bool
  closeOutput : Bool

/-- `while ((numRead = read(inputFd, buf, BUF_SIZE)) > 0)`, with both files at offset `pos`. -/
def transfer (inputFd outputFd : Nat) :
    List (ReadResult × WriteResult) → Nat → Files → Status × Files
  | [], _, fs => (.running, fs)
  | (.fails, _) :: _, _, fs => (.error "read", fs)
  | (.upTo n, written) :: transfers, pos, fs =>
    let buf := ((fs.data inputFd).drop pos).take (min BUF_SIZE (max n 1))
    if buf = [] then (.success, fs)
    else
      match written with
      | .full => transfer inputFd outputFd transfers (pos + buf.length)
          (fs.setData outputFd (Files.overwrite (fs.data outputFd) pos buf))
      | .partly k => (.error "write() returned error or partial write occurred",
          fs.setData outputFd
            (Files.overwrite (fs.data outputFd) pos (buf.take (min k (buf.length - 1)))))
      | .fails => (.error "write() returned error or partial write occurred", fs)

def copy (calls : Calls) (argv : List CString) (fs : Files) : Status × Files :=
  match argv with
  | [arg₀, old, new] =>
    if old = "--help".toList then
      (.error (String.ofList arg₀ ++ " old-file new-file\n"), fs)
    else
      match fs.inode old, calls.openOld with
      | some inputFd, true =>
        if calls.openNew then
          let (fs, outputFd) := fs.create new
          match transfer inputFd outputFd calls.transfers 0 fs with
          | (.success, fs) =>
            if ¬calls.closeInput then (.error "close input", fs)
            else if ¬calls.closeOutput then (.error "close output", fs)
            else (.success, fs)
          | stopped => stopped
        else (.error ("opening file " ++ String.ofList new), fs)
      | _, _ => (.error ("opening file " ++ String.ofList old), fs)
  | arg₀ :: _ => (.error (String.ofList arg₀ ++ " old-file new-file\n"), fs)
  | [] => (.error "(null) old-file new-file\n", fs)

variable {inputFd outputFd pos : Nat} {fs fs' : Files}

/-- The bytes up to `pos` have been copied. -/
structure Copied (inputFd outputFd pos : Nat) (fs : Files) : Prop where
  ne : inputFd ≠ outputFd
  le : pos ≤ (fs.data inputFd).length
  data : fs.data outputFd = (fs.data inputFd).take pos

/-- One chunk more. -/
theorem Copied.write (h : Copied inputFd outputFd pos fs) (n : Nat) :
    Copied inputFd outputFd (pos + (((fs.data inputFd).drop pos).take n).length)
      (fs.setData outputFd (Files.overwrite (fs.data outputFd) pos
        (((fs.data inputFd).drop pos).take n))) := by
  have hin (d : List UInt8) : (fs.setData outputFd d).data inputFd = fs.data inputFd :=
    Files.setData_data_of_ne h.ne
  have hlen : (((fs.data inputFd).drop pos).take n).length ≤ (fs.data inputFd).length - pos := by
    rw [List.length_take, List.length_drop]
    omega
  refine ⟨h.ne, ?_, ?_⟩
  · rw [hin]
    have := h.le
    omega
  · have hpos : (fs.data outputFd).length = pos := by
      rw [h.data, List.length_take]
      exact Nat.min_eq_left h.le
    have happend := Files.overwrite_length (fs.data outputFd) (((fs.data inputFd).drop pos).take n)
    rw [hpos] at happend
    rw [Files.setData_data_self, hin, happend, h.data, List.take_add]
    congr 1
    rw [List.length_take]
    exact List.take_eq_take_min ..

/-- When the loop has come to the end of the file, all of it has been copied. -/
theorem transfer_success {transfers : List (ReadResult × WriteResult)}
    (h : Copied inputFd outputFd pos fs)
    (hs : transfer inputFd outputFd transfers pos fs = (.success, fs')) :
    fs'.inode = fs.inode ∧ fs'.data outputFd = fs.data inputFd := by
  induction transfers generalizing pos fs with
  | nil => cases hs
  | cons call transfers ih =>
    obtain ⟨read, written⟩ := call
    cases read with
    | fails => cases hs
    | upTo n =>
      simp only [transfer] at hs
      split at hs
      · next heof =>
        obtain ⟨-, rfl⟩ := Prod.mk.inj hs
        -- An empty chunk is read at the end only.
        have hdrop : (fs.data inputFd).drop pos = [] := by
          refine (List.take_eq_nil_iff.mp heof).resolve_left ?_
          rw [BUF_SIZE]
          omega
        refine ⟨rfl, ?_⟩
        rw [h.data, List.take_of_length_le (List.drop_eq_nil_iff.mp hdrop)]
      · cases written with
        | full =>
          obtain ⟨hinode, hout⟩ := ih (h.write _) hs
          rw [Files.setData_data_of_ne h.ne] at hout
          exact ⟨hinode, hout⟩
        | partly k => cases hs
        | fails => cases hs

variable {calls : Calls} {arg₀ old new : CString} {i : Nat}

/-- A `copy` that succeeds has found the old file, and copied it to the new one. -/
theorem copy_success (hs : copy calls [arg₀, old, new] fs = (.success, fs')) :
    old ≠ "--help".toList ∧ ∃ i, fs.inode old = some i ∧
      (fs.inode new ≠ some i → fs'.content new = some (fs.data i)) := by
  simp only [copy] at hs
  split at hs
  · cases hs
  next hhelp =>
  split at hs
  · next i hold hopen =>
    refine ⟨hhelp, i, hold, fun hnew => ?_⟩
    obtain ⟨hinode, hempty, hdata⟩ := Files.create_spec fs new
    have hne := Files.ne_create hold hnew
    split at hs
    · split at hs
      · next fs₁ htransfer =>
        have h₀ : Copied i (fs.create new).2 0 (fs.create new).1 := ⟨hne, Nat.zero_le _, hempty⟩
        obtain ⟨hinode₁, hout⟩ := transfer_success h₀ htransfer
        split at hs
        · cases hs
        split at hs
        · cases hs
        obtain ⟨-, rfl⟩ := Prod.mk.inj hs
        rw [Files.content, hinode₁, hinode, Option.map_some, hout, hdata i hne]
      · next hstopped =>
        exact absurd hs (hstopped _)
    · cases hs
  · cases hs

/-- No call fails, and one `read` is made. -/
def Calls.faultless : Calls where
  openOld := true
  openNew := true
  transfers := [(.upTo BUF_SIZE, .full)]
  closeInput := true
  closeOutput := true

/-- An empty file is copied with a single `read`. -/
theorem copy_faultless (hold : fs.inode old = some i) (hnew : fs.inode new ≠ some i)
    (hempty : fs.data i = []) (hhelp : old ≠ "--help".toList) :
    copy .faultless [arg₀, old, new] fs = (.success, (fs.create new).1) := by
  have hdata := (Files.create_spec fs new).2.2 i (Files.ne_create hold hnew)
  simp only [copy, if_neg hhelp, hold]
  simp [Calls.faultless, transfer, hdata, hempty]

end Tlpi.Copy
