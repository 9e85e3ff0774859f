import Tlpi.Lib.Environ

/-!
# `setenv` and `unsetenv` (`proc/setenv.c`)

`environ` is an array of pointers that ends with a null pointer. `unsetenv` removes an entry by
shifting the later ones back one element, within the array, and looks again at the element it has
just overwritten.
-/

namespace Tlpi.Setenv

open Env

def EINVAL : Nat := 22
def ENOMEM : Nat := 12

/-- The entries that the cells hold up to the null pointer. -/
def entriesOf : List (Option CString) → List CString
  | some e :: cells => e :: entriesOf cells
  | _ => []

/-- The array `environ`, from its first element to the end of its memory. -/
structure Environ where
  cells : List (Option CString)
  terminated : none ∈ cells

namespace Environ

def entries (env : Environ) : List CString := entriesOf env.cells

/-- A new array for the entries. -/
def ofEntries (es : List CString) : Environ := ⟨es.map some ++ [none], by simp⟩

@[simp] theorem entries_ofEntries (es : List CString) : (ofEntries es).entries = es := by
  suffices h : entriesOf (es.map some ++ [none]) = es from h
  induction es with
  | nil => rfl
  | cons e es ih => simp [entriesOf, ih]

end Environ

/-- The loop `for (sp = ep; *sp != NULL; sp++) *sp = *(sp + 1)`, on the cells from `sp` on. -/
def shiftBack : List (Option CString) → List (Option CString)
  | some _ :: c :: cells => c :: shiftBack (c :: cells)
  -- the array has a null pointer, so that this read behind it is not made
  | [some _] => [none]
  | cells => cells

/-- `strncmp(*ep, name, len) == 0 && (*ep)[len] == '='` -/
def isEntryFor (name e : CString) : Bool :=
  e.take name.length = name ∧ e[name.length]? = some '='

/-- The shift takes the first of the entries away. -/
@[simp] theorem entriesOf_shiftBack (e : CString) (cells : List (Option CString)) :
    entriesOf (shiftBack (some e :: cells)) = entriesOf cells := by
  induction cells generalizing e with
  | nil => rfl
  | cons c cells ih =>
    cases c with
    | none => rfl
    | some e' => rw [shiftBack, entriesOf, ih e', entriesOf]

theorem none_mem_shiftBack (e : CString) (cells : List (Option CString)) :
    none ∈ shiftBack (some e :: cells) := by
  induction cells generalizing e with
  | nil => exact List.mem_singleton_self none
  | cons c cells ih =>
    rw [shiftBack]
    cases c with
    | none => exact List.mem_cons_self
    | some e' => exact List.mem_cons_of_mem _ (ih e')

/-- The loop `for (ep = environ; *ep != NULL; )` of `unsetenv`, on the cells from `ep` on. -/
def removeAll (name : CString) : List (Option CString) → List (Option CString)
  | some e :: cells =>
    if isEntryFor name e then removeAll name (shiftBack (some e :: cells))
    else some e :: removeAll name cells
  | cells => cells
termination_by cells => (entriesOf cells).length
decreasing_by
  all_goals simp [entriesOf]

theorem none_mem_removeAll {name : CString} {cells : List (Option CString)} (h : none ∈ cells) :
    none ∈ removeAll name cells := by
  fun_induction removeAll name cells with
  | case1 e cells _ ih => exact ih (none_mem_shiftBack e cells)
  | case2 e cells _ ih => exact List.mem_cons_of_mem _ (ih (by simpa using h))
  | case3 => exact h

/-- What a call returns, the error number that it sets, and the environment after it. -/
structure Outcome where
  ret : Int
  errno : Option Nat
  environ : Environ

/-- `name == NULL || name[0] == '\0' || strchr(name, '=') != NULL` fails. -/
def ValidName (name : CString) : Prop := name ≠ [] ∧ '=' ∉ name

instance (name : CString) : Decidable (ValidName name) := inferInstanceAs (Decidable (_ ∧ _))

/-- `unsetenv`; the name may be a null pointer. -/
def unsetenv (name : Option CString) (env : Environ) : Outcome :=
  match name with
  | none => ⟨-1, some EINVAL, env⟩
  | some name =>
    if ValidName name then ⟨0, none, ⟨removeAll name env.cells, none_mem_removeAll env.terminated⟩⟩
    else ⟨-1, some EINVAL, env⟩

/-- Whether `malloc` and `putenv` succeed. -/
structure Library where
  malloc : Bool
  putenv : Bool

/-- `setenv`; the name and the value may be null pointers. -/
def setenv (lib : Library) (name value : Option CString) (overwrite : Int) (env : Environ) :
    Outcome :=
  match name, value with
  | some name, some value =>
    if ValidName name then
      if getenv name env.entries ≠ none ∧ overwrite = 0 then ⟨0, none, env⟩
      else
        let env := (unsetenv (some name) env).environ
        if lib.malloc then
          let es := name ++ '=' :: value
          if lib.putenv then ⟨0, none, .ofEntries (putenv es env.entries)⟩
          else ⟨-1, some ENOMEM, env⟩
        else ⟨-1, some ENOMEM, env⟩
    else ⟨-1, some EINVAL, env⟩
  | _, _ => ⟨-1, some EINVAL, env⟩

/-! ### What `unsetenv` keeps -/

theorem isEntryFor_iff {name e : CString} : isEntryFor name e ↔ Defines name e := by
  rw [isEntryFor, decide_eq_true_iff, Defines, List.prefix_iff_eq_take, List.length_append,
    List.length_singleton]
  constructor
  · rintro ⟨htake, hget⟩
    rw [List.take_add_one, htake, hget]
    rfl
  · intro h
    have hget : e[name.length]? = some '=' := by
      have := congrArg (·[name.length]?) h
      simpa using this.symm
    rw [List.take_add_one, hget] at h
    exact ⟨(List.append_cancel_right h).symm, hget⟩

/-- The entries of other names. -/
def others (name : CString) (es : List CString) : List CString :=
  es.filter fun e => ¬Defines name e

theorem not_defines_of_mem_others {name : CString} {es : List CString} :
    ∀ e ∈ others name es, ¬Defines name e := by
  intro e he
  simpa using (List.mem_filter.mp he).2

theorem others_eq_self_iff {name : CString} {es : List CString} :
    others name es = es ↔ ∀ e ∈ es, ¬Defines name e := by
  simp [others]

theorem others_others (name : CString) (es : List CString) :
    others name (others name es) = others name es :=
  others_eq_self_iff.mpr not_defines_of_mem_others

theorem others_append_entry (name value : CString) (es : List CString) :
    others name (es ++ [name ++ '=' :: value]) = others name es := by
  simp [others, defines_entry]

/-- The loop of `unsetenv` keeps the entries of other names, in order. -/
theorem entriesOf_removeAll (name : CString) (cells : List (Option CString)) :
    entriesOf (removeAll name cells) = others name (entriesOf cells) := by
  fun_induction removeAll name cells with
  | case1 e cells he ih =>
    rw [ih, entriesOf_shiftBack, entriesOf, others, others, List.filter_cons_of_neg]
    simpa using isEntryFor_iff.mp he
  | case2 e cells he ih =>
    rw [entriesOf, ih, entriesOf, others, others, List.filter_cons_of_pos]
    simpa using fun h => he (isEntryFor_iff.mpr h)
  | case3 cells hne =>
    cases cells with
    | nil => rfl
    | cons c cells =>
      cases c with
      | none => rfl
      | some e => exact absurd rfl (hne e cells)

theorem unsetenv_valid {name : CString} (hname : ValidName name) (env : Environ) :
    (unsetenv (some name) env).ret = 0 ∧
      (unsetenv (some name) env).environ.entries = others name env.entries := by
  rw [unsetenv, if_pos hname]
  exact ⟨rfl, entriesOf_removeAll name env.cells⟩

/-- A call of `setenv` that leaves a definition as it is. -/
theorem setenv_keep {lib : Library} {name value : CString} {overwrite : Int} {env : Environ}
    (hname : ValidName name) (hkeep : getenv name env.entries ≠ none ∧ overwrite = 0) :
    setenv lib (some name) (some value) overwrite env = ⟨0, none, env⟩ := by
  rw [setenv, if_pos hname, if_pos hkeep]

/-- A call of `setenv` that goes on to remove the definitions. -/
theorem setenv_go {lib : Library} {name value : CString} {overwrite : Int} {env : Environ}
    (hname : ValidName name) (hkeep : ¬(getenv name env.entries ≠ none ∧ overwrite = 0)) :
    setenv lib (some name) (some value) overwrite env =
      if lib.malloc ∧ lib.putenv then
        ⟨0, none, .ofEntries (others name env.entries ++ [name ++ '=' :: value])⟩
      else ⟨-1, some ENOMEM, (unsetenv (some name) env).environ⟩ := by
  rw [setenv, if_pos hname, if_neg hkeep]
  simp only [(unsetenv_valid hname env).2,
    putenv_of_not_defines hname.2 not_defines_of_mem_others]
  cases lib.malloc <;> cases lib.putenv <;> rfl

/-- If such a call succeeds, the new definition comes after the entries of other names. -/
theorem entries_setenv_go {lib : Library} {name value : CString} {overwrite : Int} {env : Environ}
    (hname : ValidName name) (hkeep : ¬(getenv name env.entries ≠ none ∧ overwrite = 0))
    (hret : (setenv lib (some name) (some value) overwrite env).ret = 0) :
    (setenv lib (some name) (some value) overwrite env).environ.entries =
      others name env.entries ++ [name ++ '=' :: value] := by
  rw [setenv_go hname hkeep] at hret ⊢
  split at hret
  · next hok => rw [if_pos hok, Environ.entries_ofEntries]
  · cases hret

theorem entries_setenv_setenv {lib lib' : Library} {name value : CString} {overwrite : Int}
    {env : Environ} (hname : ValidName name)
    (hret : (setenv lib (some name) (some value) overwrite env).ret = 0)
    (hret' : (setenv lib' (some name) (some value) overwrite
      (setenv lib (some name) (some value) overwrite env).environ).ret = 0) :
    (setenv lib' (some name) (some value) overwrite
        (setenv lib (some name) (some value) overwrite env).environ).environ.entries =
      (setenv lib (some name) (some value) overwrite env).environ.entries := by
  by_cases hkeep : getenv name env.entries ≠ none ∧ overwrite = 0
  · simp only [setenv_keep hname hkeep]
  · have hes := entries_setenv_go hname hkeep hret
    generalize (setenv lib (some name) (some value) overwrite env).environ = env' at hes hret' ⊢
    by_cases hkeep' : getenv name env'.entries ≠ none ∧ overwrite = 0
    · rw [setenv_keep hname hkeep']
    · rw [entries_setenv_go hname hkeep' hret', hes, others_append_entry, others_others]

/-- `unsetenv` and `setenv` with a valid name, on every environment. -/
theorem setenv_unsetenv_exact {name : CString} (hname : ValidName name) (value : CString)
    (env : Environ) :
    ((unsetenv (some name) env).ret = 0 ∧
      (unsetenv (some name) env).environ.entries =
        env.entries.filter (fun e => ¬Defines name e) ∧
      (unsetenv (some name) (unsetenv (some name) env).environ).environ.entries =
        (unsetenv (some name) env).environ.entries) ∧
    (∀ lib, ((setenv lib (some name) (some value) 1 env).ret = 0 ↔ lib.malloc ∧ lib.putenv) ∧
      ((setenv lib (some name) (some value) 1 env).ret = 0 →
        let env' := (setenv lib (some name) (some value) 1 env).environ
        env'.entries.filter (fun e => Defines name e) = [name ++ '=' :: value] ∧
        getenv name env'.entries = some value ∧
        env'.entries.filter (fun e => ¬Defines name e) =
          env.entries.filter (fun e => ¬Defines name e))) ∧
    (∀ lib, if getenv name env.entries = none then
        setenv lib (some name) (some value) 0 env = setenv lib (some name) (some value) 1 env
      else setenv lib (some name) (some value) 0 env = ⟨0, none, env⟩) ∧
    ∀ lib lib' overwrite, (setenv lib (some name) (some value) overwrite env).ret = 0 →
      let env' := (setenv lib (some name) (some value) overwrite env).environ
      (setenv lib' (some name) (some value) overwrite env').ret = 0 →
        (setenv lib' (some name) (some value) overwrite env').environ.entries = env'.entries := by
  have hone : ¬(getenv name env.entries ≠ none ∧ (1 : Int) = 0) := by simp
  refine ⟨⟨(unsetenv_valid hname env).1, (unsetenv_valid hname env).2, ?_⟩,
    fun lib => ⟨?_, fun hret => ?_⟩, fun lib => ?_,
    fun lib lib' overwrite hret hret' => entries_setenv_setenv hname hret hret'⟩
  · rw [(unsetenv_valid hname _).2, (unsetenv_valid hname env).2, others_others]
  · rw [setenv_go hname hone]
    split
    · next hok => simp [hok]
    · next hok => simp [hok]
  · have hes := entries_setenv_go hname hone hret
    refine ⟨?_, ?_, ?_⟩
    · rw [hes, List.filter_append, List.filter_eq_nil_iff.mpr (by simp [others])]
      simp [defines_entry]
    · rw [hes, getenv_append_entry not_defines_of_mem_others]
    · calc others name (setenv lib (some name) (some value) 1 env).environ.entries
          = others name (others name env.entries) := by rw [hes, others_append_entry]
        _ = others name env.entries := others_others _ _
  · split
    · next hunset =>
      have hzero : ¬(getenv name env.entries ≠ none ∧ (0 : Int) = 0) := fun h => h.1 hunset
      rw [setenv_go hname hzero, setenv_go hname hone]
    · next hset => exact setenv_keep hname ⟨hset, rfl⟩

/-- An environment in which `A` is defined twice, among names that it begins or ends. -/
def sampleEnviron : Environ :=
  .ofEntries ["A=1".toList, "AB=2".toList, "A".toList, "A=3".toList]

theorem setenv_unsetenv_exact_sample :
    ValidName ['A'] ∧ (unsetenv (some ['A']) sampleEnviron).environ.entries =
      ["AB=2".toList, "A".toList] := by
  have h := (@setenv_unsetenv_exact ['A'] (by decide) [] sampleEnviron).1.2.1
  refine ⟨by decide, h.trans ?_⟩
  decide

/-! ### When `setenv` fails -/

/-- The arguments with which `setenv` does not fail at once. -/
def ValidArgs (name value : Option CString) : Prop :=
  (∃ n, name = some n ∧ ValidName n) ∧ value ≠ none

theorem setenv_invalid {lib : Library} {name value : Option CString} {overwrite : Int}
    {env : Environ} (h : ¬ValidArgs name value) :
    setenv lib name value overwrite env = ⟨-1, some EINVAL, env⟩ := by
  cases name with
  | none => rfl
  | some name =>
    cases value with
    | none => rfl
    | some value =>
      have hname : ¬ValidName name := fun hn => h ⟨⟨name, rfl, hn⟩, nofun⟩
      rw [setenv, if_neg hname]

/-- A failed call leaves the environment as it was, except when it has removed definitions before
it runs out of memory. -/
theorem setenv_atomic_iff (lib : Library) (name value : Option CString) (overwrite : Int)
    (env : Environ) :
    ((setenv lib name value overwrite env).ret = -1 →
      (setenv lib name value overwrite env).environ.entries = env.entries) ↔
    ¬ValidArgs name value ∨ overwrite = 0 ∨ lib.malloc ∧ lib.putenv ∨
      ∀ n, name = some n → ∀ e ∈ env.entries, ¬Defines n e := by
  by_cases hargs : ValidArgs name value
  · obtain ⟨⟨name, rfl, hname⟩, hvalue⟩ := hargs
    obtain ⟨value, rfl⟩ := Option.ne_none_iff_exists'.mp hvalue
    by_cases hkeep : getenv name env.entries ≠ none ∧ overwrite = 0
    · rw [setenv_keep hname hkeep]
      exact iff_of_true (fun _ => rfl) (.inr (.inl hkeep.2))
    · rw [setenv_go hname hkeep]
      split
      · next hok => exact iff_of_true nofun (.inr (.inr (.inl hok)))
      · next hok =>
        simp only [forall_const, (unsetenv_valid hname env).2, others_eq_self_iff]
        refine ⟨fun h => .inr (.inr (.inr fun n hn => ?_)), ?_⟩
        · cases hn
          exact h
        · rintro (h | rfl | h | h)
          · exact absurd ⟨⟨name, rfl, hname⟩, nofun⟩ h
          -- with overwrite 0 the name is not defined when the call gets this far
          · exact getenv_eq_none_iff.mp (not_not.mp fun hset => hkeep ⟨hset, rfl⟩)
          · exact absurd h hok
          · exact h name rfl
  · simp [setenv_invalid hargs, hargs]

/-- `malloc` fails after the only definition has been removed. -/
theorem setenv_not_atomic :
    ¬((setenv ⟨false, true⟩ (some ['A']) (some ['2']) 1 (.ofEntries ["A=1".toList])).ret = -1 →
      (setenv ⟨false, true⟩ (some ['A']) (some ['2']) 1
        (.ofEntries ["A=1".toList])).environ.entries =
        (Environ.ofEntries ["A=1".toList]).entries) := by
  have hname : ValidName ['A'] := by decide
  intro h
  rw [setenv_go hname (by decide)] at h
  have hes := h rfl
  rw [if_neg (by decide), (unsetenv_valid hname _).2] at hes
  revert hes
  decide

end Tlpi.Setenv
