import Mathlib.Data.List.Basic
import Mathlib.Logic.Function.Basic

/-!
# Files and their names

A name leads to an inode and the inode to the contents, so that two names may lead to the same file.
-/

namespace Tlpi

/-- The inodes from `next` on are not in use. -/
structure Files where
  inode : List Char → Option Nat
  data : Nat → List UInt8
  next : Nat
  lt_next : ∀ path i, inode path = some i → i < next

namespace Files

def content (fs : Files) (path : List Char) : Option (List UInt8) := (fs.inode path).map fs.data

def setData (fs : Files) (i : Nat) (d : List UInt8) : Files :=
  { fs with data := Function.update fs.data i d }

/-- A new empty file under a name that is free. -/
def add (fs : Files) (path : List Char) : Files where
  inode := Function.update fs.inode path (some fs.next)
  data := Function.update fs.data fs.next []
  next := fs.next + 1
  lt_next p i h := by
    rw [Function.update_apply] at h
    split at h
    · cases h
      exact Nat.lt_succ_self _
    · exact Nat.lt_succ_of_lt (fs.lt_next p i h)

/-- `open` with `O_CREAT | O_TRUNC`: the file is empty afterwards, whether it is new or not. -/
def create (fs : Files) (path : List Char) : Files × Nat :=
  match fs.inode path with
  | some i => (fs.setData i [], i)
  | none => (fs.add path, fs.next)

/-- Contents with a length of `n`, cut or filled up with zeros. -/
def resize (n : Nat) (d : List UInt8) : List UInt8 := d.take n ++ List.replicate (n - d.length) 0

/-- A write at an offset. -/
def overwrite (d : List UInt8) (pos : Nat) (bs : List UInt8) : List UInt8 :=
  resize pos d ++ bs ++ d.drop (pos + bs.length)

variable {fs : Files} {path : List Char} {i j : Nat} {d : List UInt8}

@[simp] theorem setData_inode : (fs.setData i d).inode = fs.inode := rfl

@[simp] theorem setData_data_self : (fs.setData i d).data i = d := Function.update_self ..

theorem setData_data_of_ne (h : j ≠ i) : (fs.setData i d).data j = fs.data j :=
  Function.update_of_ne h ..

/-- The file that `create` opens is found under the name and is empty; all other contents stay. -/
theorem create_spec (fs : Files) (path : List Char) :
    (fs.create path).1.inode path = some (fs.create path).2 ∧
      (fs.create path).1.data (fs.create path).2 = [] ∧
      ∀ j, j ≠ (fs.create path).2 → (fs.create path).1.data j = fs.data j := by
  unfold create
  split
  · next i hi => exact ⟨hi, setData_data_self, fun j hj => setData_data_of_ne hj⟩
  · exact ⟨Function.update_self .., Function.update_self .., fun j hj => Function.update_of_ne hj ..⟩

/-- A file under another name is not the one that `create` opens, unless the name leads to it. -/
theorem ne_create {p : List Char} (hi : fs.inode p = some i) (hne : fs.inode path ≠ some i) :
    i ≠ (fs.create path).2 := by
  unfold create
  split
  · next j hj =>
    rintro rfl
    exact hne hj
  · exact Nat.ne_of_lt (fs.lt_next p i hi)

theorem resize_self (d : List UInt8) : resize d.length d = d := by
  simp [resize]

@[simp] theorem length_resize (n : Nat) (d : List UInt8) : (resize n d).length = n := by
  rw [resize, List.length_append, List.length_take, List.length_replicate]
  omega

/-- A write inside the file. -/
theorem overwrite_append (a b bs : List UInt8) :
    overwrite (a ++ b) a.length bs = a ++ bs ++ b.drop bs.length := by
  simp [overwrite, resize, List.drop_append]

/-- A write at the end appends. -/
theorem overwrite_length (d bs : List UInt8) : overwrite d d.length bs = d ++ bs := by
  simp [overwrite, resize_self]

end Files

end Tlpi
