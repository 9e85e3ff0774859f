import Mathlib.Logic.Basic

/-!
# Postconditions of fallible functions

`Post E Q x` says of a computation `x` that its result meets `Q`, and that its error, if it fails
instead, meets `E`. The rules follow the structure of a program: sequencing, and a loop over a list.
-/

namespace Tlpi

variable {ε α β : Type} {E : ε → Prop} {P Q : α → Prop} {R : β → Prop}

def Post (E : ε → Prop) (Q : α → Prop) : Except ε α → Prop
  | .ok a => Q a
  | .error e => E e

/-- A sequence succeeds when both parts do. -/
theorem bind_eq_ok_iff {x : Except ε α} {f : α → Except ε β} {b : β} :
    x >>= f = .ok b ↔ ∃ a, x = .ok a ∧ f a = .ok b := by
  cases x with
  | ok a => exact ⟨fun h => ⟨a, rfl, h⟩, fun ⟨_, ha, h⟩ => by cases ha; exact h⟩
  | error e => exact ⟨nofun, fun ⟨_, ha, _⟩ => nomatch ha⟩

namespace Post

@[simp] theorem ok_iff {a : α} : Post E Q (.ok a) ↔ Q a := .rfl

@[simp] theorem pure_iff {a : α} : Post E Q (pure a) ↔ Q a := .rfl

@[simp] theorem error_iff {e : ε} : Post E Q (.error e) ↔ E e := .rfl

theorem of_ok {x : Except ε α} {a : α} (h : Post E Q x) (hx : x = .ok a) : Q a := by
  subst hx
  exact h

theorem of_toOption {x : Except ε α} {a : α} (h : Post E Q x) (hx : x.toOption = some a) : Q a := by
  cases x with
  | ok b =>
    cases hx
    exact h
  | error e => cases hx

theorem of_error {x : Except ε α} {e : ε} (h : Post E Q x) (hx : x = .error e) : E e := by
  subst hx
  exact h

/-- The result itself may be part of the postcondition. -/
theorem withEq {x : Except ε α} (h : Post E Q x) : Post E (fun a => Q a ∧ x = .ok a) x := by
  cases x with
  | ok a => exact ⟨h, rfl⟩
  | error e => exact h

theorem mono {E' : ε → Prop} {x : Except ε α} (h : Post E Q x) (hE : ∀ e, E e → E' e)
    (hQ : ∀ a, Q a → P a) : Post E' P x := by
  cases x with
  | ok a => exact hQ a h
  | error e => exact hE e h

theorem bind {x : Except ε α} {f : α → Except ε β} (hx : Post E Q x)
    (hf : ∀ a, Q a → Post E R (f a)) : Post E R (x >>= f) := by
  cases x with
  | ok a => exact hf a hx
  | error e => exact hx

theorem map {f : α → β} {x : Except ε α} (h : Post E (fun a => R (f a)) x) : Post E R (f <$> x) := by
  cases x with
  | ok a => exact h
  | error e => exact h

theorem ite {c : Prop} [Decidable c] {x y : Except ε α} (hx : c → Post E Q x)
    (hy : ¬c → Post E Q y) : Post E Q (if c then x else y) := by
  split
  · exact hx ‹_›
  · exact hy ‹_›

/-- The rule for a loop: every round keeps `P`. -/
theorem foldlM {f : α → β → Except ε α} {a : α} {bs : List β} (h0 : P a)
    (hstep : ∀ a b, P a → b ∈ bs → Post E P (f a b)) : Post E P (bs.foldlM f a) := by
  induction bs generalizing a with
  | nil => exact h0
  | cons b bs ih =>
    rw [List.foldlM_cons]
    refine bind (hstep a b h0 (List.mem_cons_self ..)) fun a' ha' => ih ha' ?_
    exact fun a b ha hb => hstep a b ha (List.mem_cons_of_mem _ hb)

/-- The rule for a loop with an invariant that speaks about the rounds made so far. -/
theorem foldlM_prefix {P : List β → α → Prop} {f : α → β → Except ε α} {a : α} {bs : List β}
    (h0 : P [] a) (hstep : ∀ done b a, P done a → b ∈ bs → Post E (P (done ++ [b])) (f a b)) :
    Post E (P bs) (bs.foldlM f a) := by
  suffices h : ∀ (rest done : List β) (a : α), P done a → (∀ b ∈ rest, b ∈ bs) →
      Post E (P (done ++ rest)) (rest.foldlM f a) from h bs [] a h0 fun _ hb => hb
  intro rest
  induction rest with
  | nil => exact fun done a ha _ => by simpa using ha
  | cons b rest ih =>
    intro done a ha hrest
    rw [List.foldlM_cons, List.append_cons]
    refine bind (hstep done b a ha (hrest b (List.mem_cons_self ..))) fun a' ha' => ?_
    exact ih (done ++ [b]) a' ha' fun c hc => hrest c (List.mem_cons_of_mem _ hc)

end Post

end Tlpi
