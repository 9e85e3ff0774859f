import Mathlib.Logic.Basic

/-!
# Programs as trees of calls

What a program does, as the tree of the calls that it makes: each call may succeed or fail, and what
follows depends on it. Two programs are the same if they make the same calls, whatever these return.
-/

namespace Tlpi

/-- A program that returns a value or exits; `C` are the calls, `E` the ways to exit. -/
inductive CallTree (C E α : Type) where
  | ret (a : α)
  | exit (e : E)
  | call (c : C) (next : Bool → CallTree C E α)

namespace CallTree

variable {C E α β γ : Type}

def bind : CallTree C E α → (α → CallTree C E β) → CallTree C E β
  | ret a, f => f a
  | exit e, _ => exit e
  | call c next, f => call c fun ok => (next ok).bind f

/-- Run one program for each element of a list. -/
def forEach : List β → (β → CallTree C E Unit) → CallTree C E Unit
  | [], _ => ret ()
  | b :: bs, f => (f b).bind fun _ => forEach bs f

/-- A call whose failure does not matter. -/
def ignore (c : C) : CallTree C E Unit := call c fun _ => ret ()

/-- A call whose failure makes the program exit. -/
def orExit (c : C) (e : E) : CallTree C E Unit := call c fun ok => if ok then ret () else exit e

/-- The program can return, if the calls return what they must. -/
def Returns : CallTree C E α → Prop
  | ret _ => True
  | exit _ => False
  | call _ next => ∃ ok, (next ok).Returns

/-- Every call that the program can make is one of `P`. -/
def Only (P : C → Prop) : CallTree C E α → Prop
  | ret _ => True
  | exit _ => True
  | call c next => P c ∧ ∀ ok, (next ok).Only P

theorem bind_assoc (p : CallTree C E α) (f : α → CallTree C E β) (g : β → CallTree C E γ) :
    (p.bind f).bind g = p.bind fun a => (f a).bind g := by
  induction p with
  | ret a => rfl
  | exit e => rfl
  | call c next ih => exact congrArg (call c) (funext ih)

theorem forEach_congr {bs : List β} {f g : β → CallTree C E Unit} (h : ∀ b ∈ bs, f b = g b) :
    forEach bs f = forEach bs g := by
  induction bs with
  | nil => rfl
  | cons b bs ih =>
    rw [List.forall_mem_cons] at h
    rw [forEach, forEach, h.1, ih h.2]

theorem returns_bind {p : CallTree C E Unit} {f : Unit → CallTree C E α} :
    (p.bind f).Returns ↔ p.Returns ∧ (f ()).Returns := by
  induction p with
  | ret a => exact ⟨fun h => ⟨trivial, h⟩, fun h => h.2⟩
  | exit e => exact ⟨fun h => h.elim, fun h => h.1.elim⟩
  | call c next ih =>
    constructor
    · rintro ⟨ok, h⟩
      exact ⟨⟨ok, ((ih ok).mp h).1⟩, ((ih ok).mp h).2⟩
    · rintro ⟨⟨ok, h⟩, hf⟩
      exact ⟨ok, (ih ok).mpr ⟨h, hf⟩⟩

theorem Returns.bind {p : CallTree C E α} {f : α → CallTree C E β} (hp : p.Returns)
    (hf : ∀ a, (f a).Returns) : (p.bind f).Returns := by
  induction p with
  | ret a => exact hf a
  | exit e => exact hp.elim
  | call c next ih =>
    obtain ⟨ok, hok⟩ := hp
    exact ⟨ok, ih ok hok⟩

theorem returns_ignore (c : C) : (ignore c : CallTree C E Unit).Returns := ⟨true, trivial⟩

theorem returns_orExit (c : C) (e : E) : (orExit c e).Returns := ⟨true, trivial⟩

/-- Nothing follows a program that never returns. -/
theorem bind_of_not_returns {p : CallTree C E α} (h : ¬p.Returns) (f g : α → CallTree C E β) :
    p.bind f = p.bind g := by
  induction p with
  | ret a => exact absurd trivial h
  | exit e => rfl
  | call c next ih =>
    exact congrArg (call c) (funext fun ok => ih ok fun hok => h ⟨ok, hok⟩)

/-- What follows a program that can return is part of what it does. -/
theorem bind_cancel {p : CallTree C E Unit} (h : p.Returns) {f g : Unit → CallTree C E α}
    (heq : p.bind f = p.bind g) : f () = g () := by
  induction p with
  | ret a => exact heq
  | exit e => exact h.elim
  | call c next ih =>
    obtain ⟨ok, hok⟩ := h
    exact ih ok hok (congrFun (CallTree.call.inj heq).2 ok)

theorem returns_forEach {bs : List β} {f : β → CallTree C E Unit} :
    (forEach bs f).Returns ↔ ∀ b ∈ bs, (f b).Returns := by
  induction bs with
  | nil => exact ⟨fun _ => nofun, fun _ => trivial⟩
  | cons b bs ih => rw [forEach, returns_bind, ih, List.forall_mem_cons]

theorem Only.bind {P : C → Prop} {p : CallTree C E α} {f : α → CallTree C E β} (hp : p.Only P)
    (hf : ∀ a, (f a).Only P) : (p.bind f).Only P := by
  induction p with
  | ret a => exact hf a
  | exit e => exact trivial
  | call c next ih => exact ⟨hp.1, fun ok => ih ok (hp.2 ok)⟩

theorem only_ignore {P : C → Prop} {c : C} (h : P c) : (ignore c : CallTree C E Unit).Only P :=
  ⟨h, fun _ => trivial⟩

/-- The number of calls of the longest run. -/
def depth : CallTree C E α → Nat
  | ret _ => 0
  | exit _ => 0
  | call _ next => max (next true).depth (next false).depth + 1

theorem depth_next (c : C) (next : Bool → CallTree C E α) (ok : Bool) :
    (next ok).depth < (call c next).depth := by
  cases ok
  · exact Nat.lt_succ_of_le (Nat.le_max_right ..)
  · exact Nat.lt_succ_of_le (Nat.le_max_left ..)

/-! ### Calls with a state

A call changes the state of the system by `upd`, which says which results are possible. -/

variable {S : Type} {upd : S → C → Bool → Option S} {R : S → Prop}

/-- From `s` on, `R` holds wherever the program is, and `Q` where it returns. -/
def Wp (upd : S → C → Bool → Option S) (R : S → Prop) (Q : α → S → Prop) :
    CallTree C E α → S → Prop
  | ret a, s => Q a s
  | exit _, s => R s
  | call c next, s => R s ∧ ∀ ok s', upd s c ok = some s' → (next ok).Wp upd R Q s'

/-- The rule for one program after another. -/
theorem Wp.bind {p : CallTree C E α} {f : α → CallTree C E β} {Q : α → S → Prop}
    {Q' : β → S → Prop} {s : S} (hp : p.Wp upd R Q s)
    (hf : ∀ a s, Q a s → (f a).Wp upd R Q' s) : (p.bind f).Wp upd R Q' s := by
  induction p generalizing s with
  | ret a => exact hf a s hp
  | exit e => exact hp
  | call c next ih => exact ⟨hp.1, fun ok s' h => ih ok (hp.2 ok s' h)⟩

theorem Wp.mono {p : CallTree C E α} {Q Q' : α → S → Prop} {s : S} (hp : p.Wp upd R Q s)
    (hQ : ∀ a s, Q a s → Q' a s) : p.Wp upd R Q' s := by
  induction p generalizing s with
  | ret a => exact hQ a s hp
  | exit e => exact hp
  | call c next ih => exact ⟨hp.1, fun ok s' h => ih ok (hp.2 ok s' h)⟩

theorem only_orExit {P : C → Prop} {c : C} {e : E} (h : P c) : (orExit c e).Only P := by
  refine ⟨h, fun ok => ?_⟩
  cases ok <;> exact trivial

theorem Only.forEach {P : C → Prop} {bs : List β} {f : β → CallTree C E Unit}
    (h : ∀ b, (f b).Only P) : (forEach bs f).Only P := by
  induction bs with
  | nil => exact trivial
  | cons b bs ih => exact (h b).bind fun _ => ih

end CallTree

end Tlpi
