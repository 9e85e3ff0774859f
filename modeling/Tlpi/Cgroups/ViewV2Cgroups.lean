import Tlpi.Lib.CInt
import Tlpi.Lib.GoString

/-!
# Wrapping text behind a prefix (`wrapText` of `view_v2_cgroups.go`)

The first line has a prefix before its words and the other lines as many blanks. The width is reduced
by the length of the prefix for all lines, and the column of the first line counts the prefix again,
so that the first line is filled up to a smaller width than the others.
-/

namespace Tlpi.ViewV2Cgroups

open Go

/-- `width` and `len` have the type `int`; the sum for the column does not overflow, since it is not
longer than strings that are in memory, but the reduction of an arbitrary width may. -/
def wrapText (text pre : Str) (width : Int) (indent : Str) : Str :=
  match fields text with
  | [] => []
  | word :: words =>
    let width := wrap 64 (width - pre.length)
    (words.foldl (Wrap.put 32 10 width (indent ++ List.replicate pre.length 32))
      (indent ++ pre ++ word, pre.length + word.length)).1

/-- The first line is `indent`, `pre` and words, each other line `indent`, as many blanks as `pre` is
long and words; the words are those of `text` in order, joined by single blanks. Without `indent`
each line is at most `width` long, or holds a single word, and with the first word of the next line
it would have been longer. -/
def AsDocumented (text pre : Str) (width : Int) (indent out : Str) : Prop :=
  ∃ lines : List (List Str), lines.flatten = fields text ∧ [] ∉ lines ∧
    out = Wrap.render 32 10 (indent ++ pre) (indent ++ List.replicate pre.length 32) lines ∧
    Wrap.Filled 32 (fun words => pre.length + words.length) width lines

variable {text pre indent word : Str} {width : Int} {words : List Str}

theorem wrapText_eq (h : fields text = word :: words) :
    wrapText text pre width indent =
      Wrap.render 32 10 (indent ++ pre) (indent ++ List.replicate pre.length 32)
        (Wrap.breakLines (wrap 64 (width - pre.length)) (pre.length + word.length) [word] words) := by
  rw [wrapText, h]
  exact Wrap.foldl_put_eq_render ..

/-- The output tells its lines, so these are the lines that count. -/
theorem asDocumented_iff (h : fields text = word :: words) :
    AsDocumented text pre width indent (wrapText text pre width indent) ↔
      Wrap.Filled 32 (fun words => pre.length + words.length) width
        (Wrap.breakLines (wrap 64 (width - pre.length)) (pre.length + word.length) [word] words) := by
  have hflat : (Wrap.breakLines (wrap 64 (width - pre.length)) (pre.length + word.length) [word]
      words).flatten = fields text := by
    rw [Wrap.flatten_breakLines, h, List.singleton_append]
  have hne : [] ∉ Wrap.breakLines (wrap 64 (width - pre.length)) (pre.length + word.length) [word]
      words := fun hmem => Wrap.breakLines_all_ne_nil _ _ _ (List.cons_ne_nil word []) _ hmem rfl
  constructor
  · rintro ⟨lines, hlines, hnil, hout, hfilled⟩
    rw [wrapText_eq h] at hout
    rwa [Wrap.render_inj (by decide) hne hnil hflat hlines hout]
  · exact fun hfilled => ⟨_, hflat, hne, wrapText_eq h, hfilled⟩

/-- The widths at which the reduction is exact. -/
theorem wrap_width (hwidth : -2 ^ 63 ≤ width ∧ width < 2 ^ 63) (hpre : 2 * pre.length < 2 ^ 63) :
    wrap 64 (width - pre.length) =
      if -2 ^ 63 ≤ width - pre.length then width - pre.length else width - pre.length + 2 ^ 64 := by
  split
  · exact wrap_eq_self (w := 63) (by omega) (by omega)
  · have hshift : wrap 64 (width - pre.length) = wrap 64 (width - pre.length + 2 ^ 64) := by
      rw [wrap, wrap]
      exact (Int.add_bmod_right ..).symm
    rw [hshift]
    exact wrap_eq_self (w := 63) (by omega) (by omega)

/-- A width near the least `int` wraps around, and two words stand on a line that is too long. -/
theorem not_filled_of_overflow {v : Str} (hwidth : -2 ^ 63 ≤ width ∧ width < 2 ^ 63)
    (hsize : 2 * pre.length + (Wrap.joined 32 (word :: v :: words)).length < 2 ^ 63)
    (h : ¬-2 ^ 63 ≤ width - pre.length) :
    ¬Wrap.Filled 32 (fun words => pre.length + words.length) width
      (Wrap.breakLines (wrap 64 (width - pre.length)) (pre.length + word.length) [word]
        (v :: words)) := by
  have hpair := Wrap.length_joined_le 32
    (List.prefix_append [word, v] words)
  rw [Wrap.joined_cons (by simp), Wrap.joined_singleton, List.length_append,
    List.length_cons] at hpair
  change _ ≤ (Wrap.joined 32 (word :: v :: words)).length at hpair
  rw [wrap_width hwidth (by omega), if_neg h, Wrap.breakLines, if_neg (by push_cast; omega)]
  obtain ⟨t, ls, hb⟩ := Wrap.breakLines_head (width - pre.length + 2 ^ 64)
    (pre.length + word.length + (1 + v.length)) ([word] ++ [v]) words
  rw [hb]
  intro hfilled
  rcases hfilled.bound _ List.mem_cons_self with hle | hone
  · omega
  · simp at hone

/-- The exact condition: there are not two words, or the width does not wrap around and no two or
more first words have a length, joined, that would fit behind the prefix but not behind two of it. A
character is a byte here, as `len` counts them. -/
theorem wrapText_asDocumented_iff (text pre : Str) (width : Int) (indent : Str)
    (hwidth : -2 ^ 63 ≤ width ∧ width < 2 ^ 63) (hsize : 2 * pre.length + text.length < 2 ^ 63) :
    AsDocumented text pre width indent (wrapText text pre width indent) ↔
      (fields text).length ≤ 1 ∨ -2 ^ 63 ≤ width - pre.length ∧
        ∀ j, 2 ≤ j → j ≤ (fields text).length →
          ¬(width - 2 * pre.length < (Wrap.joined 32 ((fields text).take j)).length ∧
            (Wrap.joined 32 ((fields text).take j)).length ≤ width - pre.length) := by
  have hlen := length_joined_fields text
  cases hf : fields text with
  | nil =>
    refine iff_of_true ⟨[], hf.symm, List.not_mem_nil, ?_, nofun, .nil⟩ (.inl (Nat.zero_le 1))
    rw [wrapText, hf]
    rfl
  | cons word words =>
    rw [hf] at hlen
    rw [asDocumented_iff hf]
    by_cases hover : -2 ^ 63 ≤ width - pre.length
    · rw [wrap_width hwidth (by omega), if_pos hover, Wrap.filled_add_iff,
        Wrap.filled_breakLines_offset_iff rfl]
      have hsub : width - pre.length - pre.length = width - 2 * pre.length := by omega
      rw [hsub]
      refine ⟨fun h => .inr ⟨hover, h⟩, ?_⟩
      rintro (hone | ⟨-, h⟩)
      · intro j h2 hj
        omega
      · exact h
    · cases words with
      | nil => exact iff_of_true ⟨by simp [Wrap.breakLines], .singleton _⟩ (.inl (Nat.le_refl 1))
      | cons v words =>
        refine iff_of_false (not_filled_of_overflow hwidth (by omega) hover) ?_
        rintro (hone | ⟨h, -⟩)
        · simp at hone
        · exact hover h

/-- A list that fits on its first line even so. -/
theorem wrapText_asDocumented_iff_wide :
    AsDocumented (ascii "1 20\x7d") (ascii "PIDs: \x7b") 80 (ascii "    ")
      (wrapText (ascii "1 20\x7d") (ascii "PIDs: \x7b") 80 (ascii "    ")) := by
  refine (wrapText_asDocumented_iff _ _ _ _ (by decide) (by decide)).mpr (.inr ⟨by decide, ?_⟩)
  intro j h2 hj
  rw [show (fields (ascii "1 20\x7d")).length = 2 by decide] at hj
  obtain rfl : j = 2 := by omega
  decide

/-- The first line is broken behind `1`, although `PIDs: {1 20}` has 12 of the 15 characters. -/
theorem wrapText_not_asDocumented :
    ¬AsDocumented (ascii "1 20\x7d") (ascii "PIDs: \x7b") 15 (ascii "    ")
      (wrapText (ascii "1 20\x7d") (ascii "PIDs: \x7b") 15 (ascii "    ")) := by
  have hf : fields (ascii "1 20\x7d") = [ascii "1", ascii "20\x7d"] := by decide
  rw [asDocumented_iff hf, show Wrap.breakLines _ _ _ _ = [[ascii "1"], [ascii "20\x7d"]] by decide]
  intro hfilled
  have htight := List.isChain_pair.mp hfilled.tight _ rfl
  revert htight
  decide

end Tlpi.ViewV2Cgroups
