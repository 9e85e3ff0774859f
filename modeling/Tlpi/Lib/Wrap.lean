import Mathlib.Data.Int.Notation
import Mathlib.Data.List.Chain

/-!
# Wrapping words into lines

Words are put on a line until the next one does not fit. A line is the list of its words, and the
text that is made of the lines determines them.
-/

namespace Tlpi.Wrap

variable {α : Type*}

/-- The words of a line, joined by single blanks. -/
def joined (blank : α) (l : List (List α)) : List α := [blank].intercalate l

/-- The lines as a text, with `rest` before each line but the first. -/
def text (blank newline : α) (rest : List α) (lines : List (List (List α))) : List α :=
  (newline :: rest).intercalate (lines.map (joined blank))

/-- The same with `first` before the first line, if there is one. -/
def render (blank newline : α) (first rest : List α) (lines : List (List (List α))) : List α :=
  if lines = [] then [] else first ++ text blank newline rest lines

/-- Put the next word on the line that ends in column `s.2`, or on a new one. -/
def put (blank newline : α) (width : Int) (indent : List α) (s : List α × Nat) (word : List α) :
    List α × Nat :=
  if s.2 + word.length + 1 > width then (s.1 ++ newline :: (indent ++ word), word.length)
  else (s.1 ++ blank :: word, s.2 + (1 + word.length))

/-- The lines that `put` makes of the words behind the line `cur`, which ends in column `col`. -/
def breakLines (width : Int) : Nat → List (List α) → List (List α) → List (List (List α))
  | _, cur, [] => [cur]
  | col, cur, word :: words =>
    if col + word.length + 1 > width then cur :: breakLines width word.length [word] words
    else breakLines width (col + (1 + word.length)) (cur ++ [word]) words

/-- Each line is at most `width` long, or a single word, and the first word of the next line would
not have fitted on it; `len` measures a line. -/
structure Filled (blank : α) (len : List α → Nat) (width : Int) (lines : List (List (List α))) :
    Prop where
  bound : ∀ l ∈ lines, (len (joined blank l) : Int) ≤ width ∨ l.length = 1
  tight : lines.IsChain fun l l' => ∀ w ∈ l'.head?, width < len (joined blank (l ++ [w]))

variable {blank newline : α} {width : Int} {col : Nat} {cur l : List (List α)}
  {words : List (List α)} {first rest indent w : List α} {lines lines' : List (List (List α))}

/-! ### Joined words -/

@[simp] theorem joined_singleton (w : List α) : joined blank [w] = w := List.intercalate_singleton

theorem joined_cons (h : l ≠ []) : joined blank (w :: l) = w ++ blank :: joined blank l := by
  rw [joined, List.intercalate_cons_of_ne_nil h]
  simp [joined]

theorem joined_append {m : List (List α)} (hl : l ≠ []) (hm : m ≠ []) :
    joined blank (l ++ m) = joined blank l ++ blank :: joined blank m := by
  induction l with
  | nil => exact absurd rfl hl
  | cons w l ih =>
    cases l with
    | nil => rw [List.singleton_append, joined_cons hm, joined_singleton]
    | cons v l =>
      rw [List.cons_append, joined_cons (by simp), ih (by simp), joined_cons (w := w) (by simp)]
      simp

theorem length_joined_concat (blank : α) (w : List α) (h : l ≠ []) :
    (joined blank (l ++ [w])).length = (joined blank l).length + (1 + w.length) := by
  rw [joined_append h (by simp), joined_singleton, List.length_append, List.length_cons]
  omega

/-- More words make a line longer. -/
theorem length_joined_le (blank : α) {m : List (List α)} (h : l <+: m) :
    (joined blank l).length ≤ (joined blank m).length := by
  obtain ⟨t, rfl⟩ := h
  cases l with
  | nil => exact Nat.zero_le _
  | cons w l =>
    cases t with
    | nil => rw [List.append_nil]
    | cons v t =>
      rw [joined_append (by simp) (by simp), List.length_append]
      exact Nat.le_add_right ..

theorem notMem_joined {c : α} (hc : c ≠ blank) (h : ∀ w ∈ l, c ∉ w) : c ∉ joined blank l := by
  induction l with
  | nil => exact List.not_mem_nil
  | cons w l ih =>
    have hw := h w List.mem_cons_self
    cases l with
    | nil => rwa [joined_singleton]
    | cons v l =>
      have hl := ih fun w hw => h w (List.mem_cons_of_mem _ hw)
      rw [joined_cons (by simp), List.mem_append, List.mem_cons]
      exact fun hmem => hmem.elim hw fun hmem => hmem.elim hc hl

/-! ### The lines -/

theorem breakLines_ne_nil : breakLines width col cur words ≠ [] := by
  induction words generalizing col cur with
  | nil => exact List.cons_ne_nil _ _
  | cons word words ih =>
    rw [breakLines]
    split
    · exact List.cons_ne_nil _ _
    · exact ih

/-- The first line goes on from `cur`. -/
theorem breakLines_head (width : Int) (col : Nat) (cur words : List (List α)) :
    ∃ t ls, breakLines width col cur words = (cur ++ t) :: ls := by
  induction words generalizing col cur with
  | nil => exact ⟨[], [], by rw [List.append_nil, breakLines]⟩
  | cons word words ih =>
    rw [breakLines]
    split
    · exact ⟨[], _, by rw [List.append_nil]⟩
    · obtain ⟨t, ls, h⟩ := ih (col + (1 + word.length)) (cur ++ [word])
      exact ⟨word :: t, ls, by rw [h, List.append_assoc, List.singleton_append]⟩

theorem flatten_breakLines : (breakLines width col cur words).flatten = cur ++ words := by
  induction words generalizing col cur with
  | nil => simp [breakLines]
  | cons word words ih =>
    rw [breakLines]
    split
    · rw [List.flatten_cons, ih, List.singleton_append]
    · rw [ih, List.append_assoc, List.singleton_append]

theorem breakLines_all_ne_nil (width : Int) (col : Nat) (words : List (List α)) (h : cur ≠ []) :
    ∀ l ∈ breakLines width col cur words, l ≠ [] := by
  induction words generalizing col cur with
  | nil => simpa [breakLines] using h
  | cons word words ih =>
    rw [breakLines]
    split
    · exact List.forall_mem_cons.mpr ⟨h, ih _ (by simp)⟩
    · exact ih _ (by simp)

/-- The loop of `put` makes the text of these lines. -/
theorem foldl_put (blank newline : α) (width : Int) (indent pre : List α) (col : Nat)
    (words : List (List α)) (h : cur ≠ []) :
    (words.foldl (put blank newline width indent) (pre ++ joined blank cur, col)).1 =
      pre ++ text blank newline indent (breakLines width col cur words) := by
  induction words generalizing pre col cur with
  | nil => simp [breakLines, text]
  | cons word words ih =>
    rw [List.foldl_cons, put, breakLines]
    split
    · have hih := ih (pre ++ joined blank cur ++ newline :: indent) word.length
        (List.cons_ne_nil word [])
      rw [joined_singleton] at hih
      rw [text, List.map_cons, List.intercalate_cons_of_ne_nil (by simpa using breakLines_ne_nil)]
      simpa [text] using hih
    · have hih := ih pre (col + (1 + word.length)) (show cur ++ [word] ≠ [] by simp)
      rw [joined_append h (by simp), joined_singleton] at hih
      simpa using hih

/-! ### How the lines are filled -/

/-- A line and the lines behind it. -/
theorem Filled.cons {len : List α → Nat} {ls : List (List (List α))}
    (hbound : (len (joined blank l) : Int) ≤ width ∨ l.length = 1)
    (htight : ∀ l' ∈ ls.head?, ∀ w ∈ l'.head?, width < len (joined blank (l ++ [w])))
    (h : Filled blank len width ls) : Filled blank len width (l :: ls) :=
  ⟨List.forall_mem_cons.mpr ⟨hbound, h.bound⟩, List.isChain_cons.mpr ⟨htight, h.tight⟩⟩

/-- The column of the first line may start at an offset `k`, which leaves `width - k` for its words;
the other lines are filled up to the width. -/
theorem breakLines_filled (blank : α) {k : Nat} (hcol : col = k + (joined blank cur).length)
    (hcur : (joined blank cur).length ≤ width - k ∨ cur.length = 1) (hne : cur ≠ [])
    {ls : List (List (List α))} (h : breakLines width col cur words = l :: ls) :
    ((joined blank l).length ≤ width - k ∨ l.length = 1) ∧
      (∀ l' ∈ ls.head?, ∀ w ∈ l'.head?, width - k < (joined blank (l ++ [w])).length) ∧
      Filled blank List.length width ls := by
  induction words generalizing col cur k l ls with
  | nil =>
    cases h
    exact ⟨hcur, nofun, ⟨nofun, .nil⟩⟩
  | cons word words ih =>
    have hlen := length_joined_concat blank word hne
    rw [breakLines] at h
    split at h
    · cases h
      obtain ⟨t, ls, hb⟩ := breakLines_head width word.length [word] words
      obtain ⟨hbound, htight, hrest⟩ := ih (k := 0) (by simp) (.inr rfl) (by simp) hb
      rw [hb]
      refine ⟨hcur, fun l' hl' w hw => ?_, .cons (by simpa using hbound) (by simpa using htight) hrest⟩
      cases hl'
      cases hw
      omega
    · exact ih (by omega) (.inl (by omega)) (by simp) h

theorem filled_breakLines (hcol : col = (joined blank cur).length) (hcur : cur.length = 1) :
    Filled blank List.length width (breakLines width col cur words) := by
  have hne : cur ≠ [] := List.ne_nil_of_length_pos (by omega)
  obtain ⟨t, ls, hb⟩ := breakLines_head width col cur words
  obtain ⟨hbound, htight, hrest⟩ := breakLines_filled blank (k := 0)
    (hcol.trans (Nat.zero_add _).symm) (.inr hcur) hne hb
  rw [hb]
  exact .cons (by simpa using hbound) (by simpa using htight) hrest

/-- A first line that starts at an offset is broken too early exactly if some first words, two or
more, fit on a line but not behind the offset. -/
theorem filled_breakLines_offset_iff {k : Nat} (hcol : col = k + w.length) :
    Filled blank List.length width (breakLines width col [w] words) ↔
      ∀ j, 2 ≤ j → j ≤ (w :: words).length →
        ¬(width - k < (joined blank ((w :: words).take j)).length ∧
          (joined blank ((w :: words).take j)).length ≤ width) := by
  obtain ⟨t, ls, hb⟩ := breakLines_head width col [w] words
  obtain ⟨hbound, htight, hrest⟩ := breakLines_filled blank (k := k)
    (by rw [joined_singleton, hcol]) (.inr rfl) (by simp) hb
  have hflat : [w] ++ t ++ ls.flatten = w :: words := by
    rw [← List.flatten_cons, ← hb, flatten_breakLines, List.singleton_append]
  have hne : ∀ l ∈ ls, l ≠ [] := fun l hl =>
    breakLines_all_ne_nil _ _ _ (by simp) l (hb ▸ List.mem_cons_of_mem _ hl)
  rw [hb]
  rw [List.singleton_append] at hbound htight hflat ⊢
  -- The words up to the first one of the second line.
  have hnext {l' : List (List α)} {v : List α} (hl' : l' ∈ ls.head?) (hv : v ∈ l'.head?) :
      (w :: words).take (t.length + 2) = w :: t ++ [v] ∧ t.length + 2 ≤ (w :: words).length := by
    obtain ⟨ls', rfl⟩ := List.head?_eq_some_iff.mp hl'
    obtain ⟨r, rfl⟩ := List.head?_eq_some_iff.mp hv
    rw [← hflat]
    simp [List.take_append, List.take_of_length_le]
  constructor
  · rintro hfilled j h2 hj ⟨hgt, hle⟩
    rcases Nat.lt_or_ge t.length (j - 1) with hlt | hge
    · cases ls with
      | nil =>
        have := congrArg List.length hflat
        simp only [List.flatten_nil, List.append_nil, List.length_cons] at this hj
        omega
      | cons l' ls =>
        obtain ⟨v, r, rfl⟩ := List.exists_cons_of_ne_nil (hne l' List.mem_cons_self)
        have hbreak := (List.isChain_cons.mp hfilled.tight).1 _ rfl v rfl
        rw [← (hnext rfl rfl).1] at hbreak
        have hmono := length_joined_le blank
          ((w :: words).take_prefix_take_left (show t.length + 2 ≤ j by omega))
        omega
    · have hpre : (w :: words).take j <+: w :: t := by
        rw [← hflat, List.take_append_of_le_length (by rw [List.length_cons]; omega)]
        exact List.take_prefix ..
      have hmono := length_joined_le blank hpre
      have hone : (w :: t).length ≠ 1 := by rw [List.length_cons]; omega
      have := hbound.resolve_right hone
      omega
  · refine fun h => .cons (hbound.imp_left fun h => by omega) (fun l' hl' v hv => ?_) hrest
    obtain ⟨htake, hlen⟩ := hnext hl' hv
    have hgt := htight l' hl' v hv
    have := h (t.length + 2) (by omega) hlen
    rw [htake] at this
    omega

/-- Another measure that fits in another width exactly when the first one fits. -/
theorem Filled.congr {len len' : List α → Nat} {width' : Int}
    (h : ∀ s, (len s : Int) ≤ width ↔ (len' s : Int) ≤ width') (hf : Filled blank len width lines) :
    Filled blank len' width' lines where
  bound l hl := (hf.bound l hl).imp_left (h _).mp
  tight := hf.tight.imp fun _ _ ht w hw =>
    Int.not_le.mp fun hle => Int.not_le.mpr (ht w hw) ((h _).mpr hle)

/-- A constant part of every line counts against the width. -/
theorem filled_add_iff {k : Nat} : Filled blank (fun words => k + words.length) width lines ↔
    Filled blank List.length (width - k) lines := by
  have hle (s : List α) : ((k + s.length : Nat) : Int) ≤ width ↔ s.length ≤ width - k := by omega
  exact ⟨.congr hle, .congr fun s => (hle s).symm⟩

/-! ### The text -/

theorem text_cons_of_line {ls : List (List (List α))} (h : l ≠ []) :
    text blank newline rest ((w :: l) :: ls) = w ++ blank :: text blank newline rest (l :: ls) := by
  cases ls with
  | nil => simp [text, joined_cons h]
  | cons l' ls => simp [text, joined_cons h, List.intercalate_cons_cons]

theorem text_cons_of_lines (h : lines ≠ []) :
    text blank newline rest ([w] :: lines) =
      w ++ newline :: (rest ++ text blank newline rest lines) := by
  rw [text, List.map_cons, List.intercalate_cons_of_ne_nil (by simpa using h)]
  simp [text]

theorem exists_of_flatten_eq_cons (hne : [] ∉ lines) (h : lines.flatten = w :: words) :
    ∃ l ls, lines = (w :: l) :: ls ∧ [] ∉ ls ∧ l ++ ls.flatten = words := by
  cases lines with
  | nil => cases h
  | cons l ls =>
    rw [List.mem_cons, not_or] at hne
    cases l with
    | nil => exact absurd rfl hne.1
    | cons v l =>
      rw [List.flatten_cons, List.cons_append, List.cons.injEq] at h
      obtain ⟨rfl, h⟩ := h
      exact ⟨l, ls, rfl, hne.2, h⟩

theorem eq_nil_of_flatten (hne : [] ∉ lines) (h : lines.flatten = []) : lines = [] := by
  cases lines with
  | nil => rfl
  | cons l ls =>
    rw [List.flatten_cons, List.append_eq_nil_iff] at h
    exact absurd (h.1 ▸ List.mem_cons_self) hne

/-- Behind a word stands a blank or a newline, so the text tells the lines that it is made of. -/
theorem text_inj (hsep : blank ≠ newline) (hne : [] ∉ lines) (hne' : [] ∉ lines')
    (hflat : lines.flatten = words) (hflat' : lines'.flatten = words)
    (h : text blank newline rest lines = text blank newline rest lines') : lines = lines' := by
  induction words generalizing lines lines' with
  | nil => rw [eq_nil_of_flatten hne hflat, eq_nil_of_flatten hne' hflat']
  | cons w words ih =>
    obtain ⟨l, ls, rfl, hls, hw⟩ := exists_of_flatten_eq_cons hne hflat
    obtain ⟨l', ls', rfl, hls', hw'⟩ := exists_of_flatten_eq_cons hne' hflat'
    have hend {l l' : List (List α)} {ls ls' : List (List (List α))} (hl : l = []) (hl' : l' ≠ [])
        (hw : l ++ ls.flatten = words) (hw' : l' ++ ls'.flatten = words) :
        text blank newline rest ((w :: l) :: ls) ≠ text blank newline rest ((w :: l') :: ls') := by
      subst hl
      have hne : ls ≠ [] := by
        rintro rfl
        exact hl' (List.append_eq_nil_iff.mp (hw'.trans hw.symm)).1
      rw [text_cons_of_lines hne, text_cons_of_line hl']
      intro heq
      exact hsep (List.cons.inj (List.append_cancel_left heq)).1.symm
    by_cases hl : l = []
    · by_cases hl' : l' = []
      · subst hl hl'
        by_cases hnil : words = []
        · rw [eq_nil_of_flatten hls (hw.trans hnil), eq_nil_of_flatten hls' (hw'.trans hnil)]
        · rw [text_cons_of_lines fun hls => hnil (by rw [← hw, hls]; rfl),
            text_cons_of_lines fun hls => hnil (by rw [← hw', hls]; rfl)] at h
          have heq := List.append_cancel_left (List.cons.inj (List.append_cancel_left h)).2
          rw [ih hls hls' hw hw' heq]
      · exact absurd h (hend hl hl' hw hw')
    · by_cases hl' : l' = []
      · exact absurd h.symm (hend hl' hl hw' hw)
      · rw [text_cons_of_line hl, text_cons_of_line hl'] at h
        have heq := (List.cons.inj (List.append_cancel_left h)).2
        have hlines : l :: ls = l' :: ls' := ih
          (by simpa [hls] using Ne.symm hl) (by simpa [hls'] using Ne.symm hl') hw hw' heq
        cases hlines
        rfl

theorem render_inj (hsep : blank ≠ newline) (hne : [] ∉ lines) (hne' : [] ∉ lines')
    (hflat : lines.flatten = words) (hflat' : lines'.flatten = words)
    (h : render blank newline first rest lines = render blank newline first rest lines') :
    lines = lines' := by
  by_cases hw : words = []
  · rw [eq_nil_of_flatten hne (hflat.trans hw), eq_nil_of_flatten hne' (hflat'.trans hw)]
  · have hlines : lines ≠ [] := fun hl => hw (by rw [← hflat, hl]; rfl)
    have hlines' : lines' ≠ [] := fun hl => hw (by rw [← hflat', hl]; rfl)
    rw [render, render, if_neg hlines, if_neg hlines'] at h
    exact text_inj hsep hne hne' hflat hflat' (List.append_cancel_left h)

/-- What the loop of `put` makes of the first word and the others. -/
theorem foldl_put_eq_render (blank newline : α) (width : Int) (first rest : List α) (col : Nat)
    (word : List α) (words : List (List α)) :
    (words.foldl (put blank newline width rest) (first ++ word, col)).1 =
      render blank newline first rest (breakLines width col [word] words) := by
  have hput := foldl_put blank newline width rest first col words (List.cons_ne_nil word [])
  rw [joined_singleton] at hput
  rw [render, if_neg breakLines_ne_nil, hput]

/-- If all lines have the same margin, the text is the lines with their margins, cut by newlines. -/
theorem render_self : render blank newline rest rest lines =
    [newline].intercalate (lines.map fun l => rest ++ joined blank l) := by
  induction lines with
  | nil => rfl
  | cons l ls ih =>
    cases ls with
    | nil => simp [render, text]
    | cons l' ls =>
      rw [render, if_neg (by simp), text] at ih ⊢
      simp only [List.map_cons, List.intercalate_cons_cons] at ih ⊢
      simp [← ih]

end Tlpi.Wrap
