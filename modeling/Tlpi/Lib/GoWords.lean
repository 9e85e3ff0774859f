import Tlpi.Lib.GoString

/-!
# Words in Go strings

A string of ASCII characters has its bytes as characters, and `strings.Fields` finds the words in it
that white space separates.
-/

namespace Tlpi.Go

/-- An ASCII character that is not white space. -/
def Graphic (b : UInt8) : Prop := b < 0x80 ∧ isSpace b.toNat = false

/-- ASCII white space. -/
def Blank (b : UInt8) : Prop := b < 0x80 ∧ isSpace b.toNat = true

instance : DecidablePred Graphic := fun _ => inferInstanceAs (Decidable (_ ∧ _))

instance : DecidablePred Blank := fun _ => inferInstanceAs (Decidable (_ ∧ _))

structure IsWord (w : Str) : Prop where
  ne_nil : w ≠ []
  graphic : ∀ b ∈ w, Graphic b

variable {b c : UInt8} {s w sep : Str}

theorem graphic_of_all (h : w.all (Graphic ·) = true) : ∀ b ∈ w, Graphic b := by
  simpa using h

theorem blank_of_all (h : sep.all (Blank ·) = true) : ∀ b ∈ sep, Blank b := by
  simpa using h

/-! ### Fields -/

theorem runes_cons (h : b < 0x80) (s : Str) : runes (b :: s) = ⟨b.toNat, [b]⟩ :: runes s := by
  rw [runes, runesFrom, decodeRune_of_lt h]
  rfl

theorem fieldsFrom_graphic (hw : ∀ b ∈ w, Graphic b) (cur s : Str) :
    fieldsFrom cur (runes (w ++ s)) = fieldsFrom (cur ++ w) (runes s) := by
  induction w generalizing cur with
  | nil => simp
  | cons b w ih =>
    obtain ⟨hb, hw⟩ := List.forall_mem_cons.mp hw
    rw [List.cons_append, runes_cons hb.1, fieldsFrom, if_neg (by simp [hb.2]), ih hw,
      List.append_assoc, List.singleton_append]

theorem fields_blank (hsep : ∀ b ∈ sep, Blank b) (s : Str) : fields (sep ++ s) = fields s := by
  induction sep with
  | nil => rfl
  | cons b sep ih =>
    obtain ⟨hb, hsep⟩ := List.forall_mem_cons.mp hsep
    rw [List.cons_append, fields, runes_cons hb.1, fieldsFrom, if_pos hb.2, if_pos rfl]
    exact ih hsep

theorem fields_word (hw : IsWord w) : fields w = [w] := by
  have h := fieldsFrom_graphic hw.graphic [] []
  rw [List.append_nil, List.nil_append] at h
  rw [fields, h]
  exact if_neg hw.ne_nil

/-- White space behind a word ends it. -/
theorem fields_word_append (hw : IsWord w) (hsep : ∀ b ∈ sep, Blank b) (hne : sep ≠ []) (s : Str) :
    fields (w ++ (sep ++ s)) = w :: fields s := by
  obtain ⟨b, sep, rfl⟩ := List.exists_cons_of_ne_nil hne
  obtain ⟨hb, hsep⟩ := List.forall_mem_cons.mp hsep
  rw [fields, fieldsFrom_graphic hw.graphic, List.cons_append, runes_cons hb.1, fieldsFrom,
    if_pos hb.2, List.nil_append, if_neg hw.ne_nil, List.singleton_append]
  exact congrArg (w :: ·) (fields_blank hsep s)

/-- Words with white space between them are the fields again. -/
theorem fields_joined (hc : Blank c) {ws : List Str} (hws : ∀ w ∈ ws, IsWord w) :
    fields (Wrap.joined c ws) = ws := by
  induction ws with
  | nil => rfl
  | cons w ws ih =>
    obtain ⟨hw, hws⟩ := List.forall_mem_cons.mp hws
    cases ws with
    | nil => rw [Wrap.joined_singleton, fields_word hw]
    | cons v ws =>
      have hsep := fields_word_append hw (List.forall_mem_singleton.mpr hc) (by simp)
        (Wrap.joined c (v :: ws))
      rw [List.singleton_append, ih hws] at hsep
      rw [Wrap.joined_cons (by simp), hsep]

theorem runes_ascii (h : ∀ b ∈ s, b < 0x80) : runes s = s.map fun b => ⟨b.toNat, [b]⟩ := by
  induction s with
  | nil => rfl
  | cons b s ih =>
    obtain ⟨hb, h⟩ := List.forall_mem_cons.mp h
    rw [runes_cons hb, ih h, List.map_cons]

end Tlpi.Go
