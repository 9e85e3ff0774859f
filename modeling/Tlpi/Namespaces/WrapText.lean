import Tlpi.Lib.GoString

/-!
# Wrapping text (`wrapText` of `namespaces_of.go`)

The words of a text are put on lines of a given width, each line behind an indentation that does not
count. The width is compared with `len`, which counts bytes.
-/

namespace Tlpi.NamespacesOf

open Go

/-- The `text` with newlines in place of some of its white space. -/
def wrapText (text : Str) (width : Int) (indent : Str) : Str :=
  match fields text with
  | [] => []
  | word :: words =>
    (words.foldl (Wrap.put 32 10 width indent) (indent ++ word, word.length)).1

/-- The lines of an output. -/
def linesOf (out : Str) : List Str := if out = [] then [] else out.splitOn 10

/-- Without their indentation, the lines of `out` are the words of `text` in order, joined by single
blanks; each is at most `width` long, or a single word, and its first word would not have fitted on
the line before. -/
def WrapsGreedily (len : Str → Nat) (text : Str) (width : Int) (indent out : Str) : Prop :=
  ∃ lines : List (List Str), lines.flatten = fields text ∧ (∀ l ∈ lines, l ≠ []) ∧
    linesOf out = lines.map (fun l => indent ++ Wrap.joined 32 l) ∧ Wrap.Filled 32 len width lines

variable {text indent : Str} {width : Int}

theorem wrapText_eq (word : Str) (words : List Str) (h : fields text = word :: words) :
    wrapText text width indent = Wrap.render 32 10 indent indent
      (Wrap.breakLines width word.length [word] words) := by
  rw [wrapText, h]
  exact Wrap.foldl_put_eq_render ..

theorem linesOf_render {lines : List (List Str)} (hindent : 10 ∉ indent)
    (hwords : ∀ w ∈ lines.flatten, w ≠ [] ∧ 10 ∉ w) (hne : ∀ l ∈ lines, l ≠ []) :
    linesOf (Wrap.render 32 10 indent indent lines) =
      lines.map fun l => indent ++ Wrap.joined 32 l := by
  rw [Wrap.render_self]
  cases lines with
  | nil => rfl
  | cons l ls =>
    have hcut : ∀ x ∈ (l :: ls).map (fun l => indent ++ Wrap.joined 32 l), 10 ∉ x := by
      refine List.forall_mem_map.mpr fun l hl hmem => ?_
      rcases List.mem_append.mp hmem with hmem | hmem
      · exact hindent hmem
      · refine Wrap.notMem_joined (by decide) (fun w hw => ?_) hmem
        exact (hwords w (List.mem_flatten.mpr ⟨l, hl, hw⟩)).2
    have hsplit := List.splitOn_intercalate (10 : UInt8) hcut (List.cons_ne_nil _ _)
    rw [linesOf, if_neg, hsplit]
    -- An empty output would be a single empty line.
    intro hnil
    rw [hnil, List.splitOn_nil] at hsplit
    cases ls with
    | cons => simp at hsplit
    | nil =>
      obtain ⟨w, l, rfl⟩ := List.exists_cons_of_ne_nil (hne l List.mem_cons_self)
      have hw := (hwords w (by simp)).1
      cases l with
      | nil => simp [hw] at hsplit
      | cons v l => simp [Wrap.joined_cons] at hsplit

/-- For every text, width and indentation without newlines, where lengths are those of `len`. -/
theorem wrapText_wrapsGreedily (text : Str) (width : Int) (indent : Str) (hindent : 10 ∉ indent) :
    WrapsGreedily List.length text width indent (wrapText text width indent) := by
  cases hf : fields text with
  | nil =>
    refine ⟨[], hf.symm, nofun, ?_, nofun, .nil⟩
    rw [wrapText, hf]
    rfl
  | cons word words =>
    have hflat : (Wrap.breakLines width word.length [word] words).flatten = fields text := by
      rw [Wrap.flatten_breakLines, hf, List.singleton_append]
    have hne := Wrap.breakLines_all_ne_nil width word.length words
      (List.cons_ne_nil word [])
    refine ⟨_, hflat, hne, ?_, Wrap.filled_breakLines (by simp) rfl⟩
    rw [wrapText_eq word words hf]
    refine linesOf_render hindent (fun w hw => ?_) hne
    rw [hflat] at hw
    exact fields_spec w hw

/-- A list of PIDs in a narrow terminal. -/
theorem wrapText_wrapsGreedily_pids :
    wrapText (ascii "[ 1 27 350 ]") 8 (ascii "  ") = ascii "  [ 1 27\n  350 ]" ∧
      WrapsGreedily List.length (ascii "[ 1 27 350 ]") 8 (ascii "  ")
        (wrapText (ascii "[ 1 27 350 ]") 8 (ascii "  ")) :=
  ⟨by decide, wrapText_wrapsGreedily _ 8 (ascii "  ") (by decide)⟩

/-- Two words of two characters and four bytes each fit on a line of five characters, but are put on
two lines; and an indentation with a newline in it is cut together with the lines. -/
theorem wrapText_not_wrapsGreedily :
    ¬WrapsGreedily runeCount [0xC3, 0xA9, 0xC3, 0xA9, 32, 0xC3, 0xA9, 0xC3, 0xA9] 5 []
        (wrapText [0xC3, 0xA9, 0xC3, 0xA9, 32, 0xC3, 0xA9, 0xC3, 0xA9] 5 []) ∧
      ¬WrapsGreedily runeCount (ascii "a") 5 (ascii "x\n")
        (wrapText (ascii "a") 5 (ascii "x\n")) := by
  constructor
  · rintro ⟨lines, hflat, hne, hlines, hfilled⟩
    rw [show fields _ = [[0xC3, 0xA9, 0xC3, 0xA9], [0xC3, 0xA9, 0xC3, 0xA9]] by decide] at hflat
    obtain ⟨l, ls, rfl, hls, hw⟩ := Wrap.exists_of_flatten_eq_cons (fun h => hne _ h rfl) hflat
    have hlen := congrArg List.length hlines
    rw [show (linesOf _).length = 2 by decide, List.length_map, List.length_cons] at hlen
    obtain ⟨l', rfl⟩ : ∃ l', ls = [l'] := List.length_eq_one_iff.mp (by omega)
    have hl' : l' ≠ [] := hne l' (by simp)
    rw [List.flatten_singleton] at hw
    rcases List.append_eq_singleton_iff.mp hw with ⟨rfl, rfl⟩ | ⟨-, rfl⟩
    · have htight := List.isChain_pair.mp hfilled.tight _ rfl
      revert htight
      decide
    · exact hl' rfl
  · rintro ⟨lines, -, -, hlines, -⟩
    rw [show linesOf _ = [ascii "x", ascii "a"] by decide] at hlines
    cases lines with
    | nil => cases hlines
    | cons l ls =>
      have hlen := congrArg List.length (List.cons.inj hlines).1
      rw [List.length_append, show (ascii "x").length = 1 by decide,
        show (ascii "x\n").length = 2 by decide] at hlen
      omega

end Tlpi.NamespacesOf
