import Mathlib.Data.List.DropRight
import Tlpi.Lib.Cut
import Tlpi.Lib.GoString

/-!
# Paths in Go (`path/filepath` on Unix)

`clean` works on the components of a path. A clean path says by its components what it is, and
joining names to it appends them to these components.
-/

namespace Tlpi.Go

def slash : UInt8 := 47

def dot : Str := [46]

def dotdot : Str := [46, 46]

def isAbs (p : Str) : Bool := p.head? = some slash

/-- One more component `c` on a stack whose top is its head. -/
def push (rooted : Bool) (stack : List Str) (c : Str) : List Str :=
  if c = [] ∨ c = dot then stack
  else if c = dotdot then
    match stack with
    | [] => if rooted then [] else [dotdot]
    | top :: rest => if top = dotdot then dotdot :: top :: rest else rest
  else c :: stack

def stackOf (p : Str) : List Str := (p.splitOn slash).foldl (push (isAbs p)) []

/-- The components of the clean path. -/
def comps (p : Str) : List Str := (stackOf p).reverse

def ofComps (rooted : Bool) (cs : List Str) : Str :=
  if rooted then slash :: [slash].intercalate cs
  else if cs = [] then dot else [slash].intercalate cs

/-- `filepath.Clean`. -/
def clean (p : Str) : Str := ofComps (isAbs p) (comps p)

/-- `filepath.Join` of a directory and a name. -/
def join (dir name : Str) : Str := clean (dir ++ slash :: name)

/-- `filepath.Base`. -/
def base (p : Str) : Str :=
  if p = [] then dot
  else
    let last := (p.rdropWhile (· = slash)).rtakeWhile (· ≠ slash)
    if last = [] then [slash] else last

example : clean (ascii "/sys//fs/./cgroup/../x/") = ascii "/sys/fs/x" ∧
    base (clean (ascii "a/b/")) = ascii "b" ∧ clean (ascii "a/..") = dot := by decide

/-- A name that a directory may contain. -/
structure IsName (n : Str) : Prop where
  ne_nil : n ≠ []
  ne_dot : n ≠ dot
  ne_dotdot : n ≠ dotdot
  slash : slash ∉ n

variable {rooted : Bool} {stack cs ns : List Str} {c n p : Str}

/-! ### Stacks -/

/-- A stack that stands for a clean path. -/
def Normal (rooted : Bool) : List Str → Prop
  | [] => True
  | c :: cs => slash ∉ c ∧ c ≠ [] ∧ c ≠ dot ∧
      (c = dotdot → rooted = false ∧ ∀ d ∈ cs, d = dotdot) ∧ Normal rooted cs

theorem Normal.push (h : Normal rooted stack) (hc : Go.slash ∉ c) :
    Normal rooted (push rooted stack c) := by
  rw [Go.push.eq_def]
  split
  · exact h
  · next hne =>
    rw [not_or] at hne
    split
    · next hdd =>
      split
      · cases rooted with
        | true => exact trivial
        | false => exact ⟨hdd ▸ hc, by decide, by decide, fun _ => ⟨rfl, List.forall_mem_nil _⟩, h⟩
      · next top rest =>
        split
        · next htop =>
          obtain ⟨hr, hrest⟩ := h.2.2.2.1 htop
          exact ⟨hdd ▸ hc, by decide, by decide,
            fun _ => ⟨hr, List.forall_mem_cons.mpr ⟨htop, hrest⟩⟩, h⟩
        · exact h.2.2.2.2
    · next hdd => exact ⟨hc, hne.1, hne.2, fun hd => absurd hd hdd, h⟩

theorem normal_foldl_push (h : Normal rooted stack) (hcs : ∀ c ∈ cs, slash ∉ c) :
    Normal rooted (cs.foldl (push rooted) stack) := by
  induction cs generalizing stack with
  | nil => exact h
  | cons c cs ih =>
    obtain ⟨hc, hcs⟩ := List.forall_mem_cons.mp hcs
    exact ih (h.push hc) hcs

/-- The components of a clean path go back on the stack. -/
theorem push_of_normal (h : Normal rooted (c :: stack)) : push rooted stack c = c :: stack := by
  obtain ⟨-, hnil, hdot, hdd, -⟩ := h
  rw [push.eq_def, if_neg (by simp [hnil, hdot])]
  split
  · next heq =>
    obtain ⟨hr, hall⟩ := hdd heq
    cases stack with
    | nil => simp [hr, heq]
    | cons top rest =>
      have htop := hall top List.mem_cons_self
      simp [htop, heq]
  · rfl

theorem foldl_push_reverse (h : Normal rooted stack) :
    stack.reverse.foldl (push rooted) [] = stack := by
  induction stack with
  | nil => rfl
  | cons c stack ih =>
    rw [List.reverse_cons, List.foldl_append, ih h.2.2.2.2]
    exact push_of_normal h

theorem Normal.notMem (h : Normal rooted stack) : ∀ c ∈ stack, Go.slash ∉ c := by
  induction stack with
  | nil => exact List.forall_mem_nil _
  | cons c stack ih => exact List.forall_mem_cons.mpr ⟨h.1, ih h.2.2.2.2⟩

theorem Normal.ne_nil (h : Normal rooted stack) : ∀ c ∈ stack, c ≠ [] := by
  induction stack with
  | nil => exact List.forall_mem_nil _
  | cons c stack ih => exact List.forall_mem_cons.mpr ⟨h.2.1, ih h.2.2.2.2⟩

theorem Normal.cons (h : Normal rooted stack) (hn : IsName n) : Normal rooted (n :: stack) :=
  ⟨hn.slash, hn.ne_nil, hn.ne_dot, fun hd => absurd hd hn.ne_dotdot, h⟩

theorem normal_stackOf (p : Str) : Normal (isAbs p) (stackOf p) := by
  refine normal_foldl_push trivial fun c hc => ?_
  exact notMem_of_mem_splitOn hc

/-! ### Paths by their components -/

theorem splitOn_ofComps (hcs : ∀ c ∈ cs, slash ∉ c) :
    (ofComps rooted cs).splitOn slash =
      (if rooted then [[]] else []) ++ (if cs = [] then [if rooted then [] else dot] else cs) := by
  cases rooted with
  | true =>
    have hsplit := List.splitOn_append_cons_self (a := slash) [] ([slash].intercalate cs)
    rw [List.nil_append, List.splitOn_nil] at hsplit
    simp only [ofComps, if_true, hsplit]
    cases cs with
    | nil => rfl
    | cons c cs => rw [List.splitOn_intercalate slash hcs (List.cons_ne_nil c cs)]; rfl
  | false =>
    cases cs with
    | nil => rfl
    | cons c cs =>
      have hsplit := List.splitOn_intercalate slash hcs (List.cons_ne_nil c cs)
      simpa [ofComps] using hsplit

theorem ofComps_ne_nil (hne : ∀ c ∈ cs, c ≠ []) : ofComps rooted cs ≠ [] := by
  cases rooted with
  | true => exact List.cons_ne_nil _ _
  | false =>
    cases cs with
    | nil => exact List.cons_ne_nil _ _
    | cons c cs =>
      have hc := hne c List.mem_cons_self
      cases cs <;> simp [ofComps, List.intercalate_cons_cons, hc]

theorem isAbs_ofComps (rooted : Bool) (hcs : ∀ c ∈ cs, slash ∉ c) (hne : ∀ c ∈ cs, c ≠ []) :
    isAbs (ofComps rooted cs) = rooted := by
  cases rooted with
  | true => simp [isAbs, ofComps]
  | false =>
    cases cs with
    | nil => rfl
    | cons c cs =>
      obtain ⟨b, c, rfl⟩ := List.exists_cons_of_ne_nil (hne c List.mem_cons_self)
      have hb : b ≠ slash := fun h => hcs _ List.mem_cons_self (h ▸ List.mem_cons_self)
      cases cs <;> simp [isAbs, ofComps, List.intercalate_cons_cons, hb]

theorem stackOf_ofComps (h : Normal rooted stack) :
    stackOf (ofComps rooted stack.reverse) = stack := by
  have hcs : ∀ c ∈ stack.reverse, slash ∉ c := fun c hc => h.notMem c (List.mem_reverse.mp hc)
  have hne : ∀ c ∈ stack.reverse, c ≠ [] := fun c hc => h.ne_nil c (List.mem_reverse.mp hc)
  rw [stackOf, isAbs_ofComps rooted hcs hne, splitOn_ofComps hcs, List.foldl_append]
  have hfirst : (if rooted then [[]] else []).foldl (push rooted) [] = [] := by
    cases rooted <;> rfl
  rw [hfirst]
  split
  · next hnil =>
    rw [List.reverse_eq_nil_iff.mp hnil]
    cases rooted <;> rfl
  · exact foldl_push_reverse h

theorem stackOf_clean (p : Str) : stackOf (clean p) = stackOf p :=
  stackOf_ofComps (normal_stackOf p)

/-- A name is joined to a clean path as one more component. -/
theorem join_ofComps (h : Normal rooted stack) (hn : IsName n) :
    join (ofComps rooted stack.reverse) n = ofComps rooted (n :: stack).reverse := by
  have hcs : ∀ c ∈ stack.reverse, slash ∉ c := fun c hc => h.notMem c (List.mem_reverse.mp hc)
  have hne : ∀ c ∈ stack.reverse, c ≠ [] := fun c hc => h.ne_nil c (List.mem_reverse.mp hc)
  have habs := isAbs_ofComps rooted hcs hne
  have happend : isAbs (ofComps rooted stack.reverse ++ slash :: n) = rooted := by
    rw [isAbs, List.head?_append_of_ne_nil _ (ofComps_ne_nil hne)]
    exact habs
  have hstack : stackOf (ofComps rooted stack.reverse ++ slash :: n) = n :: stack := by
    have hold := stackOf_ofComps h
    rw [stackOf, habs] at hold
    rw [stackOf, happend, List.splitOn_append_cons_self, List.foldl_append, hold,
      List.splitOn_eq_singleton hn.slash]
    exact push_of_normal (h.cons hn)
  rw [join, clean, happend, comps, hstack]

/-- So are the names on a way down. -/
theorem foldl_join_clean (p : Str) (hns : ∀ n ∈ ns, IsName n) :
    ns.foldl join (clean p) = ofComps (isAbs p) (comps p ++ ns) := by
  have haux : ∀ stack, Normal (isAbs p) stack → ns.foldl join (ofComps (isAbs p) stack.reverse) =
      ofComps (isAbs p) (stack.reverse ++ ns) := by
    induction ns with
    | nil => intro stack _; rw [List.append_nil]; rfl
    | cons n ns ih =>
      intro stack hstack
      obtain ⟨hn, hns⟩ := List.forall_mem_cons.mp hns
      rw [List.foldl_cons, join_ofComps hstack hn, ih hns _ (hstack.cons hn), List.reverse_cons,
        List.append_assoc, List.singleton_append]
  exact haux _ (normal_stackOf p)

/-- The number of components of a path as `strings.Split` counts them. -/
theorem length_splitOn_ofComps (rooted : Bool) (hcs : ∀ c ∈ cs, slash ∉ c) :
    ((ofComps rooted cs).splitOn slash).length = (if rooted then 1 else 0) + max 1 cs.length := by
  rw [splitOn_ofComps hcs, List.length_append]
  have hrest : (if cs = [] then [if rooted then [] else dot] else cs).length = max 1 cs.length := by
    cases cs with
    | nil => rfl
    | cons c cs => simp
  rw [hrest]
  cases rooted <;> rfl

/-- The last component ends the path, behind a slash or alone. -/
theorem ofComps_concat (rooted : Bool) (cs : List Str) (n : Str) :
    ∃ q, ofComps rooted (cs ++ [n]) = q ++ n ∧ (q = [] ∨ ∃ r, q = r ++ [slash]) := by
  have hjoined : ∃ q, [slash].intercalate (cs ++ [n]) = q ++ n ∧
      (q = [] ∨ ∃ r, q = r ++ [slash]) := by
    induction cs with
    | nil => exact ⟨[], List.intercalate_singleton, .inl rfl⟩
    | cons c cs ih =>
      obtain ⟨q, hq, hlast⟩ := ih
      refine ⟨c ++ [slash] ++ q, ?_, .inr ?_⟩
      · rw [List.cons_append, List.intercalate_cons_of_ne_nil (by simp), hq]
        simp
      · rcases hlast with rfl | ⟨r, rfl⟩
        · exact ⟨c, List.append_nil _⟩
        · exact ⟨c ++ [slash] ++ r, by simp⟩
  obtain ⟨q, hq, hlast⟩ := hjoined
  cases rooted with
  | true =>
    refine ⟨slash :: q, by rw [ofComps, if_pos rfl, hq, List.cons_append], .inr ?_⟩
    rcases hlast with rfl | ⟨r, rfl⟩
    · exact ⟨[], rfl⟩
    · exact ⟨slash :: r, rfl⟩
  | false => exact ⟨q, by rw [ofComps, if_neg (by decide), if_neg (by simp), hq], hlast⟩

theorem rtakeWhile_append_name (hn : slash ∉ n) {q : Str} (hq : q = [] ∨ ∃ r, q = r ++ [slash]) :
    (q ++ n).rtakeWhile (· ≠ slash) = n := by
  induction n using List.reverseRecOn with
  | nil =>
    rw [List.append_nil]
    rcases hq with rfl | ⟨r, rfl⟩
    · rfl
    · exact List.rtakeWhile_concat_neg _ _ _ (by simp)
  | append_singleton n b ih =>
    rw [List.mem_append, not_or, List.mem_singleton] at hn
    rw [← List.append_assoc, List.rtakeWhile_concat_pos _ _ _ (by simpa using Ne.symm hn.2),
      ih hn.1]

theorem base_ofComps_concat (hn : IsName n) : base (ofComps rooted (cs ++ [n])) = n := by
  obtain ⟨q, hq, hlast⟩ := ofComps_concat rooted cs n
  have hne : q ++ n ≠ [] := fun h => hn.ne_nil (List.append_eq_nil_iff.mp h).2
  have hdrop : (q ++ n).rdropWhile (· = slash) = q ++ n := by
    refine List.rdropWhile_eq_self_iff.mpr fun hl => ?_
    rw [List.getLast_append_of_ne_nil _ hn.ne_nil, decide_eq_true_eq]
    exact fun h => hn.slash (h ▸ List.getLast_mem hn.ne_nil)
  simp only [hq, base, if_neg hne, hdrop, rtakeWhile_append_name hn.slash hlast, if_neg hn.ne_nil]

end Tlpi.Go
