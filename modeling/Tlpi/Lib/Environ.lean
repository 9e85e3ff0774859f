import Mathlib.Data.List.Infix

/-!
# The environment list

The entries of an environment are strings, of which those of the form `name=value` define a
variable; a name may be defined more than once, and an entry need not define any. `getenv` finds
the first definition of a name, `putenv` replaces it or appends one.
-/

namespace Tlpi.Env

abbrev CString := List Char

/-- The entry begins with the name and `=`. -/
def Defines (name e : CString) : Prop := name ++ ['='] <+: e

instance (name e : CString) : Decidable (Defines name e) :=
  inferInstanceAs (Decidable (_ <+: _))

/-- The value of the first entry that defines the name. -/
def getenv (name : CString) (env : List CString) : Option CString :=
  (env.find? (Defines name ·)).map (·.drop (name.length + 1))

/-- Put the entry `es` in the place of the first one that defines its name, or at the end. -/
def putenv (es : CString) : List CString → List CString
  | [] => [es]
  | e :: env =>
    if Defines (es.takeWhile (· ≠ '=')) e then es :: env else e :: putenv es env

variable {name value e : CString} {env : List CString}

theorem defines_entry (name value : CString) : Defines name (name ++ '=' :: value) :=
  ⟨value, by simp⟩

@[simp] theorem getenv_eq_none_iff : getenv name env = none ↔ ∀ e ∈ env, ¬Defines name e := by
  simp [getenv]

/-- A definition is found when nothing before it defines the name. -/
theorem getenv_append_entry (h : ∀ e ∈ env, ¬Defines name e) :
    getenv name (env ++ [name ++ '=' :: value]) = some value := by
  have hnone : env.find? (Defines name ·) = none := by simpa using h
  rw [getenv, List.find?_append, hnone, Option.none_or, List.find?_singleton,
    if_pos (by simpa using defines_entry name value)]
  simp

/-- A name that is not defined is defined by a new last entry. -/
theorem putenv_of_not_defines (hname : '=' ∉ name) (h : ∀ e ∈ env, ¬Defines name e) :
    putenv (name ++ '=' :: value) env = env ++ [name ++ '=' :: value] := by
  have htake : (name ++ '=' :: value).takeWhile (· ≠ '=') = name := by
    have hne : ∀ c ∈ name, decide (c ≠ '=') = true := by
      intro c hc
      exact decide_eq_true fun h => hname (h ▸ hc)
    rw [List.takeWhile_append_of_pos hne]
    simp
  induction env with
  | nil => rfl
  | cons e env ih =>
    rw [putenv, htake, if_neg (h e List.mem_cons_self),
      ih fun e he => h e (List.mem_cons_of_mem _ he)]
    rfl

end Tlpi.Env
