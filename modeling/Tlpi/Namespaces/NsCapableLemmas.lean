import Tlpi.Namespaces.NsCapable

/-!
# The verdict of `ns_capable` and its descriptors

`Ancestor` and `HasVerdict` say what the program is to report. The walk up from the target uses two
descriptor numbers in turn, the number of the target and the next one that is free: which of them
is open at the end depends on the number of steps (`climbs`).
-/

namespace Tlpi.NsCapable

variable {ν : Type*} (K : UserNamespaces ν)

/-- One step up. -/
def UserNamespaces.Up (n p : ν) : Prop := K.parent n = some p

/-- `x` is a proper ancestor of `y`. -/
def UserNamespaces.Ancestor (x y : ν) : Prop := Relation.TransGen K.Up y x

/-- `c` is the child of `x` on the chain from `x` to `y`. -/
structure UserNamespaces.ChildOnChain (x y c : ν) : Prop where
  parent : K.parent c = some x
  chain : Relation.ReflTransGen K.Up y c

/-- The proper ancestors, from the parent up. -/
def UserNamespaces.ancestors (n : ν) : List ν :=
  match _h : K.parent n with
  | none => []
  | some p => p :: ancestors p
termination_by K.depth n
decreasing_by exact K.depth_lt _h

inductive Verdict
  | inTarget
  | ownsChild
  | inAncestor
  | elsewhere
  deriving DecidableEq, Repr

/-- The kernel's rules for the capabilities of a process in the user namespace `y`. -/
inductive HasVerdict (proc : Process ν) (y : ν) : Verdict → Prop
  | inTarget (h : proc.userns = y) : HasVerdict proc y .inTarget
  | ownsChild {c : ν} (h : K.ChildOnChain proc.userns y c) (ho : proc.euid = K.owner c) :
    HasVerdict proc y .ownsChild
  | inAncestor {c : ν} (h : K.ChildOnChain proc.userns y c) (ho : proc.euid ≠ K.owner c) :
    HasVerdict proc y .inAncestor
  | elsewhere (hne : proc.userns ≠ y) (h : ¬K.Ancestor proc.userns y) :
    HasVerdict proc y .elsewhere

/-- The lines printed for a verdict. -/
def Verdict.report (proc : Process ν) : Verdict → List String
  | .inTarget => ["PID " ++ proc.pidStr ++ " is in the target namespace.\n",
      "Subject to LSM checks, it has the following capabilities:\n",
      "Capabilities: " ++ proc.caps ++ "\n"]
  | .ownsChild => ["PID " ++ proc.pidStr ++ " is in an ancestor user namespace",
      " and its effective UID matches\n",
      "the owner of the immediate child user namespace of that ancestor namespace.\n",
      "Therefore, subject to LSM checks, it has all capabilities in the target\n" ++
        "namespace!\n"]
  | .inAncestor => ["PID " ++ proc.pidStr ++ " is in an ancestor user namespace",
      ", but its effective UID does not match\n",
      "the owner of the immediate child user namespace of that ancestor namespace.\n",
      "Therefore, subject to LSM checks, it has only the capabilities that are in its\n" ++
        "sets, which are:\n",
      "Capabilities: " ++ proc.caps ++ "\n"]
  | .elsewhere => ["PID " ++ proc.pidStr ++ " is not in an ancestor user namespace.\n",
      "Therefore, it has no capabilities in the target namespace.\n"]

/-! ### The tree -/

variable {K}

theorem depth_le_of_up {n p : ν} (h : Relation.ReflTransGen K.Up n p) : K.depth p ≤ K.depth n := by
  induction h with
  | refl => exact Nat.le_refl _
  | tail _ h ih => exact Nat.le_trans (Nat.le_of_lt (K.depth_lt h)) ih

theorem UserNamespaces.Ancestor.depth_lt {x y : ν} (h : K.Ancestor x y) :
    K.depth x < K.depth y := by
  obtain ⟨p, hp, hx⟩ := Relation.TransGen.head'_iff.mp h
  exact Nat.lt_of_le_of_lt (depth_le_of_up hx) (K.depth_lt hp)

theorem not_ancestor_of_root {x n : ν} (h : K.parent n = none) : ¬K.Ancestor x n := by
  intro hx
  obtain ⟨p, hp, -⟩ := Relation.TransGen.head'_iff.mp hx
  cases h.symm.trans hp

theorem ancestor_iff {x n p : ν} (h : K.parent n = some p) :
    K.Ancestor x n ↔ p = x ∨ K.Ancestor x p := by
  constructor
  · intro hx
    obtain ⟨q, hq, hx⟩ := Relation.TransGen.head'_iff.mp hx
    cases h.symm.trans hq
    exact (Relation.reflTransGen_iff_eq_or_transGen.mp hx).imp_left Eq.symm
  · rintro (rfl | hx)
    · exact .single h
    · exact hx.head h

theorem UserNamespaces.ChildOnChain.ancestor {x y c : ν} (h : K.ChildOnChain x y c) :
    K.Ancestor x y :=
  Relation.TransGen.tail' h.chain h.parent

theorem UserNamespaces.ChildOnChain.up {x n p c : ν} (h : K.ChildOnChain x p c)
    (hp : K.parent n = some p) : K.ChildOnChain x n c :=
  ⟨h.parent, h.chain.head hp⟩

/-- Of two namespaces with the same parent neither is above the other. -/
theorem eq_of_up {x c d : ν} (hc : K.parent c = some x) (hd : K.parent d = some x)
    (h : Relation.ReflTransGen K.Up c d) : c = d := by
  rcases Relation.ReflTransGen.cases_head h with rfl | ⟨p, hp, hpd⟩
  · rfl
  · cases hc.symm.trans hp
    exact absurd (depth_le_of_up hpd) (Nat.not_le_of_lt (K.depth_lt hd))

theorem UserNamespaces.ChildOnChain.unique {x y c d : ν} (hc : K.ChildOnChain x y c)
    (hd : K.ChildOnChain x y d) : c = d := by
  have hunique : Relator.RightUnique K.Up := fun n p q hp hq => Option.some.inj (hp.symm.trans hq)
  rcases Relation.ReflTransGen.total_of_right_unique hunique hc.chain hd.chain with h | h
  · exact eq_of_up hc.parent hd.parent h
  · exact (eq_of_up hd.parent hc.parent h).symm

theorem HasVerdict.unique {proc : Process ν} {y : ν} {v w : Verdict} (hv : HasVerdict K proc y v)
    (hw : HasVerdict K proc y w) : v = w := by
  have htarget : proc.userns = y → ¬K.Ancestor proc.userns y :=
    fun heq hx => absurd hx.depth_lt (heq ▸ Nat.lt_irrefl _)
  cases hv with
  | inTarget h =>
    cases hw with
    | inTarget => rfl
    | ownsChild h' => exact absurd h'.ancestor (htarget h)
    | inAncestor h' => exact absurd h'.ancestor (htarget h)
    | elsewhere hne => exact absurd h hne
  | ownsChild h ho =>
    cases hw with
    | inTarget h' => exact absurd h.ancestor (htarget h')
    | ownsChild => rfl
    | inAncestor h' ho' => exact absurd (h.unique h' ▸ ho) ho'
    | elsewhere _ h' => exact absurd h.ancestor h'
  | inAncestor h ho =>
    cases hw with
    | inTarget h' => exact absurd h.ancestor (htarget h')
    | ownsChild h' ho' => exact absurd (h'.unique h ▸ ho') ho
    | inAncestor => rfl
    | elsewhere _ h' => exact absurd h.ancestor h'
  | elsewhere hne h =>
    cases hw with
    | inTarget h' => exact absurd h' hne
    | ownsChild h' => exact absurd h'.ancestor h
    | inAncestor h' => exact absurd h'.ancestor h
    | elsewhere => rfl

/-! ### The walk -/

section Walk

variable [DecidableEq ν] {s : State ν} {fdX child : Nat} {x n p : ν}

theorem loop_root (hc : s.fds.get child = some (.userns n)) (hp : K.parent n = none) :
    isAncestorUserns.loop K fdX child s = (.ok none, s) := by
  rw [isAncestorUserns.loop]
  split
  · rename_i n' hc'
    cases hc.symm.trans hc'
    split
    · rfl
    · rename_i hp'
      cases hp.symm.trans hp'
  · rename_i hother
    exact absurd hc (hother n)

theorem nsEqual_openFile (hx : s.fds.get fdX = some (.userns x)) :
    nsEqual (s.openFile (.userns p)).2 (s.openFile (.userns p)).1 fdX = .ok (p = x) := by
  rw [nsEqual]
  simp only [State.openFile, FdTable.get_alloc_lowest, FdTable.get_alloc_of_ne hx,
    File.userns.injEq]

/-- One step of the walk. -/
theorem loop_parent (hc : s.fds.get child = some (.userns n)) (hp : K.parent n = some p)
    (hx : s.fds.get fdX = some (.userns x)) :
    isAncestorUserns.loop K fdX child s =
      if p = x then
        (.ok (some child), ((s.openFile (.userns p)).2.close s.fds.lowest).2)
      else isAncestorUserns.loop K fdX s.fds.lowest ((s.openFile (.userns p)).2.close child).2 := by
  rw [isAncestorUserns.loop]
  split
  · rename_i n' hc'
    cases hc.symm.trans hc'
    split
    · rename_i hp'
      cases hp.symm.trans hp'
    · rename_i p' hp'
      cases hp.symm.trans hp'
      simp only [nsEqual_openFile hx]
      by_cases hpx : p = x
      · simp [hpx, State.openFile]
      · simp [hpx, State.openFile]
  · rename_i hother
    exact absurd hc (hother n)

theorem loop_spec (hc : s.fds.get child = some (.userns n)) (hx : s.fds.get fdX = some (.userns x))
    (hne : fdX ≠ child) :
    ∃ ret s', isAncestorUserns.loop K fdX child s = (.ok ret, s') ∧ s'.out = s.out ∧
      (ret = none ↔ ¬K.Ancestor x n) ∧
      ∀ d, ret = some d → ∃ c, s'.fds.get d = some (.userns c) ∧ K.ChildOnChain x n c := by
  induction hd : K.depth n using Nat.strongRecOn generalizing n child s with
  | ind d ih =>
    subst hd
    cases hp : K.parent n with
    | none => exact ⟨none, s, loop_root hc hp, rfl, iff_of_true rfl (not_ancestor_of_root hp), nofun⟩
    | some p =>
      rw [loop_parent hc hp hx]
      by_cases hpx : p = x
      · subst hpx
        refine ⟨_, _, if_pos rfl, rfl, iff_of_false nofun ?_, ?_⟩
        · exact not_not.mpr ((ancestor_iff hp).mpr (.inl rfl))
        · rintro d ⟨⟩
          exact ⟨n, get_openFile_close_of_ne hc (FdTable.lowest_ne hc).symm, hp, .refl⟩
      · obtain ⟨ret, s', hl, hout, hnone, hsome⟩ := ih _ (K.depth_lt hp) (get_openFile_close hc)
          (get_openFile_close_of_ne hx hne) (FdTable.lowest_ne hx).symm rfl
        refine ⟨ret, s', by rw [if_neg hpx, hl], hout, ?_, fun d hd => ?_⟩
        · rw [hnone, ancestor_iff hp, or_iff_right hpx]
        · obtain ⟨c, hget, hchild⟩ := hsome d hd
          exact ⟨c, hget, hchild.up hp⟩

end Walk

/-! ### The parts of `main` -/

/-- The user namespace that decides about a target. -/
def File.target? : File ν → Option ν
  | .userns n => some n
  | .otherns _ o => some o
  | .other _ => none

/-- No `close` has been applied to a descriptor that was not open. -/
def State.ClosesOk (s : State ν) : Prop := ∀ c ∈ s.closes, c.2 = true

theorem State.ClosesOk.close {s : State ν} {fd : Nat} (h : s.ClosesOk) (hfd : s.fds.get fd ≠ none) :
    (s.close fd).2.ClosesOk := by
  intro c hc
  rcases List.mem_append.mp hc with hc | hc
  · exact h c hc
  · rw [List.mem_singleton.mp hc]
    exact Option.isSome_iff_ne_none.mpr hfd

theorem closeChecked_ok {s : State ν} {fd : Nat} {msg : String} (h : s.fds.get fd ≠ none) :
    s.closeChecked fd msg = (.ok (), (s.close fd).2) := by
  have : (s.close fd).1 = true := Option.isSome_iff_ne_none.mpr h
  rw [State.closeChecked]
  split <;> simp_all

theorem closeChecked_error {s : State ν} {fd : Nat} {msg : String} (h : s.fds.get fd = none) :
    s.closeChecked fd msg = (.error msg, (s.close fd).2) := by
  have : (s.close fd).1 = false := by simp [State.close, h]
  rw [State.closeChecked]
  split <;> simp_all

theorem closeChecked_out (s : State ν) (fd : Nat) (msg : String) :
    (s.closeChecked fd msg).2.out = s.out := by
  by_cases h : s.fds.get fd = none
  · rw [closeChecked_error h]
    rfl
  · rw [closeChecked_ok h]
    rfl

/-- The two descriptors with which `main` starts: of the numbers up to the one of the target none is
free. -/
structure Opened (s : State ν) (t p : Nat) (y x : ν) : Prop where
  target : s.fds.get t = some (.userns y)
  pid : s.fds.get p = some (.userns x)
  ne : p ≠ t
  lt : t < s.fds.lowest

theorem openTarget_otherns (i : Nat) (y x : ν) (s : State ν) :
    ∃ t s₁, openTarget (.otherns i y) s = (.ok t, s₁) ∧ s₁.out = s.out ∧
      (s.ClosesOk → s₁.ClosesOk) ∧
      Opened (s₁.openFile (.userns x)).2 t (s₁.openFile (.userns x)).1 y x := by
  -- the number of `target_ns` is free again when `pid_userns` is opened
  obtain ⟨T, out, closes⟩ := s
  have hlow := FdTable.lowest_alloc_alloc_close T (.otherns i y) (.userns y)
  have hlt := FdTable.lowest_lt_lowest_alloc T (.otherns i y)
  have hget : (((T.alloc (.otherns i y)).alloc (.userns y)).close T.lowest).get
      (T.alloc (.otherns i y)).lowest = some (.userns y) := by
    rw [FdTable.get_close_of_ne (Nat.ne_of_gt hlt), FdTable.get_alloc_lowest]
  refine ⟨(T.alloc (.otherns i y)).lowest, _, rfl, rfl, fun hok => ?_,
    FdTable.get_alloc_of_ne hget, FdTable.get_alloc_lowest .., FdTable.lowest_ne hget, ?_⟩
  · refine State.ClosesOk.close (s := ⟨(T.alloc (.otherns i y)).alloc (.userns y), out, closes⟩) hok ?_
    exact FdTable.get_alloc_ne_none (ne_of_eq_of_ne (FdTable.get_alloc_lowest ..) nofun)
  · refine FdTable.lt_lowest fun j hj => ?_
    show (FdTable.alloc (((T.alloc (.otherns i y)).alloc (.userns y)).close T.lowest)
      (.userns x)).get j ≠ none
    rw [FdTable.get_alloc, hlow]
    split
    · exact nofun
    · rename_i hne
      rcases Nat.lt_or_eq_of_le hj with hj | rfl
      · exact FdTable.get_alloc_alloc_close hj hne
      · exact ne_of_eq_of_ne hget nofun

theorem openTarget_spec {target : File ν} {y : ν} (h : target.target? = some y) (s : State ν)
    (x : ν) : ∃ t s₁, openTarget target s = (.ok t, s₁) ∧ s₁.out = s.out ∧
      (s.ClosesOk → s₁.ClosesOk) ∧
      Opened (s₁.openFile (.userns x)).2 t (s₁.openFile (.userns x)).1 y x := by
  cases target with
  | userns n =>
    cases h
    have hget := FdTable.get_alloc_lowest s.fds (.userns y)
    refine ⟨_, _, rfl, rfl, id, FdTable.get_alloc_of_ne hget, FdTable.get_alloc_lowest ..,
      FdTable.lowest_ne hget, ?_⟩
    exact Nat.lt_trans (FdTable.lowest_lt_lowest_alloc ..) (FdTable.lowest_lt_lowest_alloc ..)
  | otherns i o =>
    cases h
    exact openTarget_otherns i y x s
  | other => cases h

theorem finish_out (t p : Nat) (s : State ν) : (finish t p s).2.out = s.out := by
  by_cases h : s.fds.get t = none
  · rw [finish, closeChecked_error h]
    rfl
  · rw [finish, closeChecked_ok h]
    exact closeChecked_out ..

theorem finish_spec {t p : Nat} {s : State ν} (hp : s.fds.get p ≠ none) (hne : p ≠ t)
    (h : s.ClosesOk) :
    (finish t p s).1 = .ok () ∧ (finish t p s).2.ClosesOk ↔ s.fds.get t ≠ none := by
  by_cases ht : s.fds.get t = none
  · rw [finish, closeChecked_error ht]
    exact iff_of_false (fun h => nomatch h.1) (not_not.mpr ht)
  · have hp' : (s.close t).2.fds.get p ≠ none := by
      rw [State.close, FdTable.get_close_of_ne hne]
      exact hp
    rw [finish, closeChecked_ok ht]
    simp only [closeChecked_ok hp']
    exact iff_of_true ⟨trivial, (h.close ht).close hp'⟩ ht

/-! ### The descriptors of the walk -/

section Climbing

variable {s : State ν} {fdX t c child : Nat} {x n p : ν}

/-- The walk is at `child`, which is one of the numbers `t` and `c`; the other one is the lowest
number that is free. -/
structure Climbing (fdX t c : Nat) (s : State ν) (child : Nat) : Prop where
  lt : t < c
  ne : fdX ≠ t ∧ fdX ≠ c
  mem : child = t ∨ child = c
  get_child : s.fds.get child ≠ none
  free : s.fds.get (if child = t then c else t) = none
  below : ∀ i < c, i ≠ t → s.fds.get i ≠ none

theorem Climbing.lowest (h : Climbing fdX t c s child) :
    s.fds.lowest = if child = t then c else t := by
  refine FdTable.lowest_eq h.free fun i hi => ?_
  rcases h.mem with rfl | rfl
  · rw [if_pos rfl] at hi
    rcases eq_or_ne i child with rfl | hne
    · exact h.get_child
    · exact h.below i hi hne
  · rw [if_neg (Nat.ne_of_gt h.lt)] at hi
    exact h.below i (Nat.lt_trans hi h.lt) (Nat.ne_of_lt hi)

theorem Climbing.fdX_ne (h : Climbing fdX t c s child) : fdX ≠ child := by
  rcases h.mem with rfl | rfl
  · exact h.ne.1
  · exact h.ne.2

theorem Climbing.get_target (h : Climbing fdX t c s child) : s.fds.get t ≠ none ↔ child = t := by
  constructor
  · intro ht
    by_contra hne
    exact ht (by simpa [hne] using h.free)
  · rintro rfl
    exact h.get_child

theorem Climbing.congr (h : Climbing fdX t c s child) {s' : State ν}
    (hs : ∀ i, s'.fds.get i = s.fds.get i) : Climbing fdX t c s' child where
  lt := h.lt
  ne := h.ne
  mem := h.mem
  get_child := by rw [hs]; exact h.get_child
  free := by rw [hs]; exact h.free
  below i hi hne := by rw [hs]; exact h.below i hi hne

/-- A step up changes over to the other number. -/
theorem Climbing.climb (h : Climbing fdX t c s child) (g : File ν) :
    Climbing fdX t c ((s.openFile g).2.close child).2 s.fds.lowest := by
  obtain ⟨f, hf⟩ := Option.ne_none_iff_exists'.mp h.get_child
  have hlow := h.lowest
  refine ⟨h.lt, h.ne, ?_, ne_of_eq_of_ne (get_openFile_close hf) nofun, ?_, fun i hi hne => ?_⟩
  · rw [hlow]
    split
    · exact .inr rfl
    · exact .inl rfl
  · have hchild : (if s.fds.lowest = t then c else t) = child := by
      have := h.lt
      rcases h.mem with rfl | rfl
      · rw [if_pos rfl] at hlow
        rw [if_neg (by omega)]
      · rw [if_neg (by omega)] at hlow
        rw [if_pos hlow]
    rw [hchild, State.close, FdTable.get_close, if_pos rfl]
  · obtain ⟨f, hf⟩ := Option.ne_none_iff_exists'.mp (h.below i hi hne)
    refine ne_of_eq_of_ne (get_openFile_close_of_ne hf ?_) nofun
    rcases h.mem with rfl | rfl
    · exact hne
    · exact Nat.ne_of_lt hi

variable [DecidableEq ν]

/-- The steps up from `y` before the walk ends: the ancestors below `x`, or all of them. -/
def UserNamespaces.climbs (K : UserNamespaces ν) (x y : ν) : Nat :=
  ((K.ancestors y).takeWhile (· ≠ x)).length

theorem climbs_root (h : K.parent n = none) : K.climbs x n = 0 := by
  have hnil : K.ancestors n = [] := by
    rw [UserNamespaces.ancestors]
    split
    · rfl
    · rename_i h'
      cases h.symm.trans h'
  rw [UserNamespaces.climbs, hnil]
  rfl

theorem climbs_parent (h : K.parent n = some p) :
    K.climbs x n = if p = x then 0 else K.climbs x p + 1 := by
  have hcons : K.ancestors n = p :: K.ancestors p := by
    rw [UserNamespaces.ancestors]
    split
    · rename_i h'
      cases h.symm.trans h'
    · rename_i h'
      cases h.symm.trans h'
      rfl
  rw [UserNamespaces.climbs, hcons, List.takeWhile_cons]
  by_cases hp : p = x
  · simp [hp]
  · simp [hp, UserNamespaces.climbs]

theorem loop_climbing (h : Climbing fdX t c s child) (hc : s.fds.get child = some (.userns n))
    (hx : s.fds.get fdX = some (.userns x)) :
    ∃ d ret s', isAncestorUserns.loop K fdX child s = (.ok ret, s') ∧ Climbing fdX t c s' d ∧
      (ret = none ∨ ret = some d) ∧ (d = child ↔ Even (K.climbs x n)) ∧
      (s.ClosesOk → s'.ClosesOk) ∧ s'.fds.get fdX = some (.userns x) := by
  induction hd : K.depth n using Nat.strongRecOn generalizing n child s with
  | ind d ih =>
    subst hd
    cases hp : K.parent n with
    | none =>
      refine ⟨child, none, s, loop_root hc hp, h, .inl rfl, iff_of_true rfl ?_, id, hx⟩
      rw [climbs_root hp]
      exact ⟨0, rfl⟩
    | some p =>
      rw [loop_parent hc hp hx, climbs_parent hp]
      by_cases hpx : p = x
      · refine ⟨child, _, _, if_pos hpx, h.congr (get_openFile_close_lowest s _), .inr rfl,
          iff_of_true rfl ?_, fun hok => ?_, ?_⟩
        · rw [if_pos hpx]
          exact ⟨0, rfl⟩
        · exact State.ClosesOk.close (s := (s.openFile (.userns p)).2) hok
            (ne_of_eq_of_ne (FdTable.get_alloc_lowest ..) nofun)
        · rw [get_openFile_close_lowest, hx]
      · obtain ⟨d, ret, s', hl, hd, hret, heven, hok, hx'⟩ := ih _ (K.depth_lt hp)
          (h.climb (.userns p)) (get_openFile_close hc) (get_openFile_close_of_ne hx h.fdX_ne) rfl
        refine ⟨d, ret, s', by rw [if_neg hpx, hl], hd, hret, ?_, fun hok' => hok ?_, hx'⟩
        · rw [if_neg hpx, Nat.even_add_one, ← heven]
          have hlow := h.lowest
          have hlt := h.lt
          have hm := h.mem
          have hmd := hd.mem
          split at hlow <;> omega
        · exact State.ClosesOk.close (s := (s.openFile (.userns p)).2) hok'
            (FdTable.get_alloc_ne_none h.get_child)

end Climbing

/-! ### The whole program -/

section Main

theorem reportAncestor_eq {s : State ν} {d t : Nat} {c : ν} (proc : Process ν)
    (hd : s.fds.get d = some (.userns c)) :
    reportAncestor K proc d t s =
      let s₁ := (euidOfProcess proc s).2.printf
        ((if proc.euid = K.owner c then Verdict.ownsChild else .inAncestor).report proc)
      if d ≠ t then s₁.closeChecked d "close-desc_userns" else (.ok (), s₁) := by
  have heuid : euidOfProcess proc s = (proc.euid, (euidOfProcess proc s).2) := rfl
  have hget : (euidOfProcess proc s).2.fds.get d = some (.userns c) :=
    (get_openFile_close_lowest s (.other 0) d).trans hd
  rw [reportAncestor, heuid]
  simp only [uidOfUsernsOwner, hget]
  by_cases ho : proc.euid = K.owner c
  · simp [ho, State.printf, Verdict.report]
  · simp [ho, State.printf, Verdict.report, displayProcessCapabilities]

theorem reportAncestor_spec {s : State ν} {d t : Nat} {c : ν} (proc : Process ν)
    (hd : s.fds.get d = some (.userns c)) :
    ∃ s', reportAncestor K proc d t s = (.ok (), s') ∧
      s'.out = s.out ++
        (if proc.euid = K.owner c then Verdict.ownsChild else .inAncestor).report proc ∧
      (s.ClosesOk → s'.ClosesOk) ∧
      ∀ i, s'.fds.get i = if d ≠ t ∧ i = d then none else s.fds.get i := by
  have hget : ∀ i, (euidOfProcess proc s).2.fds.get i = s.fds.get i :=
    get_openFile_close_lowest s (.other 0)
  have hok : s.ClosesOk → (euidOfProcess proc s).2.ClosesOk :=
    fun hok => State.ClosesOk.close (s := (s.openFile (.other 0)).2) hok
      (ne_of_eq_of_ne (FdTable.get_alloc_lowest ..) nofun)
  rw [reportAncestor_eq proc hd]
  generalize (if proc.euid = K.owner c then Verdict.ownsChild else .inAncestor).report proc = text
  by_cases hdt : d = t
  · refine ⟨_, if_neg (not_not.mpr hdt), rfl, hok, fun i => ?_⟩
    rw [if_neg fun h => h.1 hdt]
    exact hget i
  · have hopen : ((euidOfProcess proc s).2.printf text).fds.get d ≠ none :=
      ne_of_eq_of_ne ((hget d).trans hd) nofun
    refine ⟨_, (if_pos hdt).trans (closeChecked_ok hopen), rfl,
      fun h => State.ClosesOk.close (hok h) hopen, fun i => ?_⟩
    rw [State.close, FdTable.get_close]
    simp only [hdt, ne_eq, not_false_eq_true, true_and]
    split
    · rfl
    · exact hget i

variable [DecidableEq ν]

/-- From two open descriptors `main` comes to its verdict; the number of the target is then open
or not by the length of the walk. -/
theorem reportVerdict_spec {s : State ν} {t p : Nat} {y : ν} (proc : Process ν)
    (h : Opened s t p y proc.userns) :
    ∃ v s', reportVerdict K proc p t s = (.ok (), s') ∧ HasVerdict K proc y v ∧
      s'.out = s.out ++ v.report proc ∧ (s.ClosesOk → s'.ClosesOk) ∧ s'.fds.get p ≠ none ∧
      (s'.fds.get t ≠ none ↔ proc.userns = y ∨ Even (K.climbs proc.userns y)) := by
  have hne : nsEqual s p t = .ok (proc.userns = y) := by
    rw [nsEqual, h.target, h.pid]
    simp only [File.userns.injEq]
  rw [reportVerdict, hne]
  by_cases hy : proc.userns = y
  · simp only [hy, decide_true]
    refine ⟨.inTarget, _, rfl, .inTarget hy, ?_, id, ne_of_eq_of_ne h.pid nofun,
      iff_of_true (ne_of_eq_of_ne h.target nofun) (.inl trivial)⟩
    simp [displayProcessCapabilities, State.printf, Verdict.report]
  · simp only [hy, decide_false, false_or]
    have hclimb : Climbing p t s.fds.lowest s t :=
      ⟨h.lt, ⟨h.ne, (FdTable.lowest_ne h.pid).symm⟩, .inl rfl, ne_of_eq_of_ne h.target nofun,
        by rw [if_pos rfl, FdTable.get_lowest], fun i hi _ => FdTable.get_of_lt_lowest hi⟩
    obtain ⟨ret, s', hl, hout, hnone, hsome⟩ := loop_spec (K := K) h.target h.pid h.ne
    obtain ⟨d, ret', s'', hl', hd, hret, heven, hok, hx⟩ := loop_climbing (K := K) hclimb h.target h.pid
    cases hl.symm.trans hl'
    rw [isAncestorUserns, hl]
    cases ret with
    | none =>
      refine ⟨.elsewhere, _, rfl, .elsewhere hy (hnone.mp rfl), ?_, hok, ?_, ?_⟩
      · simp [State.printf, Verdict.report, hout]
      · exact ne_of_eq_of_ne hx nofun
      · exact hd.get_target.trans heven
    | some d' =>
      obtain rfl : d' = d := Option.some.inj (hret.resolve_left nofun)
      obtain ⟨c, hget, hchild⟩ := hsome d' rfl
      obtain ⟨s'', hrep, hout', hok', hget'⟩ := reportAncestor_spec (K := K) (t := t) proc hget
      refine ⟨_, s'', hrep, ?_, by rw [hout', hout], fun h => hok' (hok h), ?_, ?_⟩
      · split
        · rename_i ho
          exact .ownsChild hchild ho
        · rename_i ho
          exact .inAncestor hchild ho
      · rw [hget', if_neg fun h => hd.fdX_ne h.2]
        exact ne_of_eq_of_ne hx nofun
      · rw [hget', if_neg fun h => h.1 h.2.symm]
        exact hd.get_target.trans heven

theorem main_spec {target : File ν} {y : ν} (proc : Process ν) (s : State ν)
    (h : target.target? = some y) :
    ∃ v, HasVerdict K proc y v ∧ (main K proc target s).2.out = s.out ++ v.report proc ∧
      (s.ClosesOk → ((main K proc target s).1 = .ok () ∧ (main K proc target s).2.ClosesOk ↔
        proc.userns = y ∨ Even (K.climbs proc.userns y))) := by
  obtain ⟨t, s₁, hopen, hout, hok₁, hs⟩ := openTarget_spec h s proc.userns
  obtain ⟨v, s₂, hrep, hv, hout₂, hok₂, hp, ht⟩ := reportVerdict_spec (K := K) proc hs
  have hmain : main K proc target s = finish t (s₁.openFile (.userns proc.userns)).1 s₂ := by
    rw [main, hopen]
    simp only
    rw [hrep]
  refine ⟨v, hv, ?_, ?_⟩
  · rw [hmain, finish_out, hout₂]
    exact congrArg (· ++ _) hout
  · intro hok
    rw [hmain]
    exact (finish_spec hp hs.ne (hok₂ (hok₁ hok))).trans ht

end Main

/-! ### The verdict -/

/-- `is_ancestor_userns` finds the child of `x` on the chain to `y`, and `main` reports what the
kernel's rules say. -/
theorem nsCapable_verdict [DecidableEq ν] (K : UserNamespaces ν) :
    (∀ (s : State ν) (fdX fdY : Nat) (x y : ν), s.fds.get fdX = some (.userns x) →
      s.fds.get fdY = some (.userns y) → fdX ≠ fdY →
      ∃ ret s', isAncestorUserns K fdX fdY s = (.ok ret, s') ∧ (ret = none ↔ ¬K.Ancestor x y) ∧
        ∀ d, ret = some d → ∃ c, s'.fds.get d = some (.userns c) ∧ K.ChildOnChain x y c) ∧
    ∀ (proc : Process ν) (target : File ν) (s : State ν) (y : ν) (v : Verdict),
      target.target? = some y → HasVerdict K proc y v →
      (main K proc target s).2.out = s.out ++ v.report proc := by
  refine ⟨fun s fdX fdY x y hx hy hne => ?_, fun proc target s y v ht hv => ?_⟩
  · obtain ⟨ret, s', hl, -, hspec⟩ := loop_spec (K := K) hy hx hne
    exact ⟨ret, s', hl, hspec⟩
  · obtain ⟨w, hw, hout, -⟩ := main_spec (K := K) proc s ht
    rw [hout, hw.unique hv]

/-- A line of user namespaces below the initial one. -/
def line : UserNamespaces Nat where
  parent n := if n = 0 then none else some (n - 1)
  owner n := 1000 + n
  depth n := n
  depth_lt {n p} h := by
    split at h
    · cases h
    · cases h
      omega

theorem nsCapable_verdict_grandchild :
    HasVerdict line ⟨"42", 0, 1001, "="⟩ 2 .ownsChild ∧
      (main line ⟨"42", 0, 1001, "="⟩ (.userns 2) ⟨⟨[]⟩, [], []⟩).2.out =
        Verdict.report (ν := Nat) ⟨"42", 0, 1001, "="⟩ .ownsChild :=
  have h : HasVerdict line ⟨"42", 0, 1001, "="⟩ 2 .ownsChild :=
    .ownsChild (c := 1) ⟨rfl, .single rfl⟩ rfl
  ⟨h, (nsCapable_verdict line).2 _ _ _ 2 _ rfl h⟩

/-! ### The descriptors -/

/-- No `close` fails and the program exits successfully exactly if the process is in the target
namespace or the walk takes an even number of steps. -/
theorem main_closes_iff [DecidableEq ν] (K : UserNamespaces ν) (proc : Process ν) (target : File ν)
    (y : ν) (fds : FdTable (File ν)) (h : target.target? = some y) :
    (main K proc target ⟨fds, [], []⟩).1 = .ok () ∧
        (main K proc target ⟨fds, [], []⟩).2.ClosesOk ↔
      proc.userns = y ∨ Even (K.climbs proc.userns y) := by
  obtain ⟨-, -, -, hok⟩ := main_spec (K := K) proc ⟨fds, [], []⟩ h
  exact hok nofun

theorem main_closes_iff_child :
    (main line ⟨"42", 0, 1001, "="⟩ (.otherns 7 1) ⟨⟨[]⟩, [], []⟩).1 = .ok () ∧
        (main line ⟨"42", 0, 1001, "="⟩ (.otherns 7 1) ⟨⟨[]⟩, [], []⟩).2.ClosesOk ↔
      0 = 1 ∨ Even (line.climbs 0 1) :=
  main_closes_iff line ⟨"42", 0, 1001, "="⟩ (.otherns 7 1) 1 ⟨[]⟩ rfl

/-- The process is in the parent of the parent of the target: `is_ancestor_userns` has closed the
descriptor of the target, and `main` closes it again. -/
theorem main_closes_target_twice :
    (main line ⟨"42", 0, 1001, "="⟩ (.userns 2)
        ⟨⟨[some (.other 1), some (.other 2), some (.other 3)]⟩, [], []⟩).1 =
        .error "close-target_userns" ∧
      (main line ⟨"42", 0, 1001, "="⟩ (.userns 2)
        ⟨⟨[some (.other 1), some (.other 2), some (.other 3)]⟩, [], []⟩).2.closes =
        [(3, true), (3, true), (3, true), (5, true), (3, false)] := by
  have hloop : isAncestorUserns line 4 3 ⟨⟨[some (.other 1), some (.other 2), some (.other 3),
        some (.userns 2), some (.userns 0)]⟩, [], []⟩ =
      (.ok (some 5), ⟨⟨[some (.other 1), some (.other 2), some (.other 3), none, some (.userns 0),
        some (.userns 1)]⟩, [], [(3, true), (3, true)]⟩) := by
    rw [isAncestorUserns, loop_parent (n := 2) (p := 1) (x := 0) rfl rfl rfl, if_neg (by decide),
      loop_parent (n := 1) (p := 0) (x := 0) rfl rfl rfl, if_pos rfl]
    rfl
  have hrep : reportVerdict line ⟨"42", 0, 1001, "="⟩ 4 3 ⟨⟨[some (.other 1), some (.other 2),
      some (.other 3), some (.userns 2), some (.userns 0)]⟩, [], []⟩ = reportAncestor line
        ⟨"42", 0, 1001, "="⟩ 5 3 ⟨⟨[some (.other 1), some (.other 2), some (.other 3), none,
          some (.userns 0), some (.userns 1)]⟩, [], [(3, true), (3, true)]⟩ := by
    rw [reportVerdict, hloop]
    rfl
  have htarget : openTarget (.userns 2)
      ⟨⟨[some (.other 1), some (.other 2), some (.other 3)]⟩, [], []⟩ =
      (.ok 3, (⟨⟨[some (.other 1), some (.other 2), some (.other 3), some (.userns 2)]⟩, [],
        []⟩ : State Nat)) := rfl
  have hpid : State.openFile ⟨⟨[some (.other 1), some (.other 2), some (.other 3),
      some (.userns 2)]⟩, [], []⟩ (.userns 0) =
      (4, (⟨⟨[some (.other 1), some (.other 2), some (.other 3), some (.userns 2),
        some (.userns 0)]⟩, [], []⟩ : State Nat)) := rfl
  rw [main, htarget]
  simp only [hpid, hrep]
  exact ⟨rfl, rfl⟩

end Tlpi.NsCapable
