import Mathlib.Data.List.Basic

/-!
# Replaying a log

A log is a list of entries that are applied to a state one after the other; `l.foldl apply s` is the
state in the end. `AllAlong` and `SomeAlong` speak about the entries of a log, each in the state in
which it is applied.
-/

namespace Tlpi

variable {σ ε : Type*} {apply : σ → ε → σ} {P Q : σ → ε → Prop}

/-- Every entry meets `P` in the state in which it is applied. -/
def AllAlong (apply : σ → ε → σ) (P : σ → ε → Prop) : σ → List ε → Prop
  | _, [] => True
  | s, e :: es => P s e ∧ AllAlong apply P (apply s e) es

/-- Some entry meets `P` in the state in which it is applied. -/
def SomeAlong (apply : σ → ε → σ) (P : σ → ε → Prop) : σ → List ε → Prop
  | _, [] => False
  | s, e :: es => P s e ∨ SomeAlong apply P (apply s e) es

theorem AllAlong.mono {s : σ} {es : List ε} (h : AllAlong apply P s es)
    (hle : ∀ s e, P s e → Q s e) : AllAlong apply Q s es := by
  induction es generalizing s with
  | nil => trivial
  | cons e es ih => exact ⟨hle s e h.1, ih h.2⟩

/-- Entries that meet `P` in every state. -/
theorem allAlong_of_forall {s : σ} {es : List ε} (h : ∀ e ∈ es, ∀ s, P s e) :
    AllAlong apply P s es := by
  induction es generalizing s with
  | nil => trivial
  | cons e es ih =>
    exact ⟨h e (List.mem_cons_self ..) s, ih fun e he => h e (List.mem_cons_of_mem _ he)⟩

theorem allAlong_append {s : σ} {es es' : List ε} : AllAlong apply P s (es ++ es') ↔
    AllAlong apply P s es ∧ AllAlong apply P (es.foldl apply s) es' := by
  induction es generalizing s with
  | nil => simp [AllAlong]
  | cons e es ih => simp [AllAlong, ih, and_assoc]

theorem someAlong_append {s : σ} {es es' : List ε} : SomeAlong apply P s (es ++ es') ↔
    SomeAlong apply P s es ∨ SomeAlong apply P (es.foldl apply s) es' := by
  induction es generalizing s with
  | nil => simp [SomeAlong]
  | cons e es ih => simp [SomeAlong, ih, or_assoc]

/-- An entry that meets one condition while all meet another. -/
theorem SomeAlong.and_all {s : σ} {es : List ε} (h : SomeAlong apply P s es)
    (hall : AllAlong apply Q s es) : ∃ s e, P s e ∧ Q s e := by
  induction es generalizing s with
  | nil => cases h
  | cons e es ih =>
    rcases h with h | h
    · exact ⟨s, e, h, hall.1⟩
    · exact ih h hall.2

/-- What every entry and every state on the way keep is kept to the end. -/
theorem foldl_transfer {R : σ → σ → Prop} (hstep : ∀ s s' e, R s s' → Q s e → R (apply s e) (apply s' e))
    {s s' : σ} {es : List ε} (h : R s s') (hall : AllAlong apply Q s es) :
    R (es.foldl apply s) (es.foldl apply s') := by
  induction es generalizing s s' with
  | nil => exact h
  | cons e es ih => exact ih (hstep s s' e h hall.1) hall.2

theorem AllAlong.transfer {R : σ → σ → Prop} {P' : σ → ε → Prop}
    (hstep : ∀ s s' e, R s s' → Q s e → R (apply s e) (apply s' e))
    (hP : ∀ s s' e, R s s' → Q s e → P s e → P' s' e) {s s' : σ} {es : List ε} (h : R s s')
    (hall : AllAlong apply Q s es) (hs : AllAlong apply P s es) : AllAlong apply P' s' es := by
  induction es generalizing s s' with
  | nil => trivial
  | cons e es ih =>
    exact ⟨hP s s' e h hall.1 hs.1, ih (hstep s s' e h hall.1) hall.2 hs.2⟩

theorem SomeAlong.transfer {R : σ → σ → Prop} {P' : σ → ε → Prop}
    (hstep : ∀ s s' e, R s s' → Q s e → R (apply s e) (apply s' e))
    (hP : ∀ s s' e, R s s' → Q s e → P s e → P' s' e) {s s' : σ} {es : List ε} (h : R s s')
    (hall : AllAlong apply Q s es) (hs : SomeAlong apply P s es) : SomeAlong apply P' s' es := by
  induction es generalizing s s' with
  | nil => cases hs
  | cons e es ih =>
    rcases hs with hs | hs
    · exact .inl (hP s s' e h hall.1 hs)
    · exact .inr (ih (hstep s s' e h hall.1) hall.2 hs)

theorem AllAlong.and {s : σ} {es : List ε} (h : AllAlong apply P s es) (h' : AllAlong apply Q s es) :
    AllAlong apply (fun s e => P s e ∧ Q s e) s es := by
  induction es generalizing s with
  | nil => trivial
  | cons e es ih => exact ⟨⟨h.1, h'.1⟩, ih h.2 h'.2⟩

theorem SomeAlong.mono {s : σ} {es : List ε} (h : SomeAlong apply P s es)
    (hle : ∀ s e, P s e → Q s e) : SomeAlong apply Q s es := by
  induction es generalizing s with
  | nil => cases h
  | cons e es ih =>
    rcases h with h | h
    · exact .inl (hle s e h)
    · exact .inr (ih h)

end Tlpi
