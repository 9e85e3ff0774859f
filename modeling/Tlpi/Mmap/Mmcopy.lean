import Tlpi.Fileio.Copy
import Tlpi.Lib.CBuf

/-!
# Copying a file through mappings (`mmcopy.c`)

`mmcopy` makes the destination as long as the source, maps both and copies the bytes between the
mappings. A source of length zero cannot be mapped and is handled first, before the destination is
opened. That is where it differs from `copy`.
-/

namespace Tlpi.Mmcopy

open Copy (CString Status copy)

/-- How the calls of `mmcopy` end. -/
structure Calls where
  openSrc : Bool
  fstat : Bool
  mmapSrc : Bool
  openDst : Bool
  ftruncate : Bool
  mmapDst : Bool
  msync : Bool

def mmcopy (calls : Calls) (argv : List CString) (fs : Files) : Status × Files :=
  match argv with
  | [_, source, dest] =>
    match fs.inode source, calls.openSrc with
    | some fdSrc, true =>
      if ¬calls.fstat then (.error "fstat", fs)
      else
        let st_size := (fs.data fdSrc).length
        if st_size = 0 then (.success, fs)
        else if ¬calls.mmapSrc then (.error "mmap", fs)
        else if ¬calls.openDst then (.error "open", fs)
        else
          let (fs, fdDst) := fs.create dest
          if ¬calls.ftruncate then (.error "ftruncate", fs)
          else
            let fs := fs.setData fdDst (Files.resize st_size (fs.data fdDst))
            if ¬calls.mmapDst then (.error "mmap", fs)
            else
              -- The pages of a private mapping are those of the file until they are written to.
              let src := Files.resize st_size (fs.data fdSrc)
              let fs := fs.setData fdDst (fill (fs.data fdDst) src)
              if ¬calls.msync then (.error "msync", fs)
              else (.success, fs)
    | _, _ => (.error "open", fs)
  | arg₀ :: _ => (.error (String.ofList arg₀ ++ " source-file dest-file\n"), fs)
  | [] => (.error "(null) source-file dest-file\n", fs)

/-- If `mmcopy` and `copy` both succeed, either leaves the contents of the source in the
destination, however their calls end and however `copy` cuts its reads. -/
def AgreesWithCopy (fs : Files) (source dest : CString) : Prop :=
  ∀ (calls : Calls) (calls' : Copy.Calls) (arg₀ arg₀' : CString) (fs₁ fs₂ : Files),
    mmcopy calls [arg₀, source, dest] fs = (.success, fs₁) →
    copy calls' [arg₀', source, dest] fs = (.success, fs₂) →
    fs₁.content dest = fs.content source ∧ fs₂.content dest = fs.content source

variable {calls : Calls} {arg₀ source dest : CString} {fs fs' : Files} {i : Nat}

/-- Nothing happens to the destination of an empty source. -/
theorem mmcopy_success_nil (hsrc : fs.inode source = some i) (hempty : fs.data i = [])
    (hs : mmcopy calls [arg₀, source, dest] fs = (.success, fs')) : fs' = fs := by
  simp only [mmcopy, hsrc] at hs
  split at hs
  · next fdSrc hfd hopen =>
    cases hfd
    rw [hempty] at hs
    split at hs
    · cases hs
    · obtain ⟨-, rfl⟩ := Prod.mk.inj hs
      rfl
  · cases hs

/-- Any other source is copied. -/
theorem mmcopy_success_of_ne_nil (hsrc : fs.inode source = some i)
    (hdst : fs.inode dest ≠ some i) (hne : fs.data i ≠ [])
    (hs : mmcopy calls [arg₀, source, dest] fs = (.success, fs')) :
    fs'.content dest = some (fs.data i) := by
  obtain ⟨hinode, hempty, hdata⟩ := Files.create_spec fs dest
  have hfd := Files.ne_create hsrc hdst
  simp only [mmcopy, hsrc] at hs
  split at hs
  · next fdSrc hfdSrc hopen =>
    cases hfdSrc
    rw [if_neg (mt List.length_eq_zero_iff.mp hne)] at hs
    repeat' split at hs
    any_goals cases hs
    -- The bytes of the source fill the mapping of the destination, which is as long.
    rw [Files.content, Files.setData_inode, Files.setData_inode, hinode, Option.map_some,
      Files.setData_data_self, Files.setData_data_self, Files.setData_data_of_ne hfd, hdata i hfd,
      Files.resize_self, fill, List.drop_of_length_le, List.append_nil]
    rw [Files.length_resize]
  · cases hs

/-- No call fails. -/
def Calls.faultless : Calls := ⟨true, true, true, true, true, true, true⟩

theorem mmcopy_faultless (hsrc : fs.inode source = some i) (hempty : fs.data i = []) :
    mmcopy .faultless [arg₀, source, dest] fs = (.success, fs) := by
  simp [mmcopy, hsrc, hempty, Calls.faultless]

/-- For an empty source the two agree only on a destination that is there and is empty already. -/
theorem AgreesWithCopy.content_dest (h : AgreesWithCopy fs source dest)
    (hsrc : fs.inode source = some i) (hdst : fs.inode dest ≠ some i) (hempty : fs.data i = [])
    (hhelp : source ≠ "--help".toList) : fs.content dest = some [] := by
  have hcontent : fs.content source = some [] := by
    rw [Files.content, hsrc, Option.map_some, hempty]
  have hagree := h .faultless .faultless [] [] _ _ (mmcopy_faultless hsrc hempty)
    (Copy.copy_faultless hsrc hdst hempty hhelp)
  exact hagree.1.trans hcontent

/-- The two programs agree unless the source is empty and the destination is missing or
holds something. A source named `--help` is a request for the usage to `copy`. -/
theorem agreesWithCopy_iff (hdistinct : ∀ i, fs.inode source = some i → fs.inode dest ≠ some i) :
    AgreesWithCopy fs source dest ↔
      fs.content source ≠ some [] ∨ fs.content dest = some [] ∨ source = "--help".toList := by
  constructor
  · intro h
    by_cases hcontent : fs.content source = some []
    · obtain ⟨i, hsrc, hempty⟩ := Option.map_eq_some_iff.mp hcontent
      by_cases hhelp : source = "--help".toList
      · exact .inr (.inr hhelp)
      · exact .inr (.inl (h.content_dest hsrc (hdistinct i hsrc) hempty hhelp))
    · exact .inl hcontent
  · intro h calls calls' arg₀ arg₀' fs₁ fs₂ hmmcopy hcopy
    obtain ⟨hhelp, i, hsrc, hcopied⟩ := Copy.copy_success hcopy
    have hcontent : fs.content source = some (fs.data i) := by
      rw [Files.content, hsrc, Option.map_some]
    rw [hcontent] at h ⊢
    refine ⟨?_, hcopied (hdistinct i hsrc)⟩
    by_cases hempty : fs.data i = []
    · obtain rfl := mmcopy_success_nil hsrc hempty hmmcopy
      rw [hempty] at h ⊢
      rcases h with h | h | h
      · exact absurd rfl h
      · exact h
      · exact absurd h hhelp
    · exact mmcopy_success_of_ne_nil hsrc (hdistinct i hsrc) hempty hmmcopy

/-- An empty file `a` and a file `b` with one byte. -/
def emptyAndOther : Files where
  inode path := if path = ['a'] then some 0 else if path = ['b'] then some 1 else none
  data i := if i = 1 then [7] else []
  next := 2
  lt_next path i h := by
    split at h
    · cases h
      decide
    split at h
    · cases h
      decide
    · cases h

/-- A copy of `b` to `a` is not concerned. -/
theorem agreesWithCopy_iff_nonempty :
    (∀ i, emptyAndOther.inode ['b'] = some i → emptyAndOther.inode ['a'] ≠ some i) ∧
      AgreesWithCopy emptyAndOther ['b'] ['a'] := by
  have hdistinct : ∀ i, emptyAndOther.inode ['b'] = some i →
      emptyAndOther.inode ['a'] ≠ some i := by
    intro i hb ha
    exact absurd (hb.trans ha.symm) (by decide)
  exact ⟨hdistinct, (agreesWithCopy_iff hdistinct).mpr (.inl (by decide))⟩

/-- When `a` is copied to `b`, `mmcopy` succeeds and leaves the byte in `b`. -/
theorem not_agreesWithCopy : ¬AgreesWithCopy emptyAndOther ['a'] ['b'] := by
  intro h
  have hdest := h.content_dest (i := 0) rfl (by decide) rfl (by decide)
  exact absurd hdest (by decide)

end Tlpi.Mmcopy
