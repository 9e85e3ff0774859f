import Mathlib.Logic.Function.Basic

/-!
# A mutex between one main thread and many workers

The owner of a mutex is the main thread, one of the workers, or nobody. `Excl` ties the owner to
where the threads are: a thread is inside its critical section exactly while it owns the mutex. The
rules say how each operation on the mutex, and each step that keeps a thread inside or outside,
keeps `Excl`.
-/

namespace Tlpi

open Function

variable {ι α : Type*}

/-- The main thread or a worker. -/
inductive Agent (ι : Type*)
  | main
  | worker (i : ι)
  deriving DecidableEq

/-- The threads inside their critical sections are those that own the mutex. -/
structure Excl (owner : Option (Agent ι)) (mainIn : Bool) (inside : ι → Bool) : Prop where
  main : mainIn ↔ owner = some .main
  worker : ∀ i, inside i ↔ owner = some (.worker i)

namespace Excl

variable {owner : Option (Agent ι)} {b : Bool} {inside : ι → Bool} {i j : ι}

theorem main_of_worker (h : Excl owner b inside) (hi : inside i) : b = false := by
  refine Bool.eq_false_iff.mpr fun hb => ?_
  have := (h.main.mp hb).symm.trans ((h.worker i).mp hi)
  cases this

theorem worker_of_main (h : Excl owner true inside) (i : ι) : inside i = false :=
  Bool.eq_false_iff.mpr fun hi => by simpa using h.main_of_worker hi

theorem worker_unique (h : Excl owner b inside) (hi : inside i) (hj : inside j) : i = j := by
  have := ((h.worker i).mp hi).symm.trans ((h.worker j).mp hj)
  cases this
  rfl

theorem main_of_free (h : Excl none b inside) : b = false :=
  Bool.eq_false_iff.mpr fun hb => by simpa using h.main.mp hb

theorem worker_of_free (h : Excl none b inside) (i : ι) : inside i = false :=
  Bool.eq_false_iff.mpr fun hi => by simpa using (h.worker i).mp hi

theorem lockMain (h : Excl none b inside) : Excl (some .main) true inside :=
  ⟨by simp, fun i => by simp [h.worker_of_free i]⟩

theorem unlockMain (h : Excl owner true inside) : Excl none false inside :=
  ⟨by simp, fun i => by simp [h.worker_of_main i]⟩

variable [DecidableEq ι]

theorem lockWorker (h : Excl none b inside) (i : ι) :
    Excl (some (.worker i)) b (update inside i true) := by
  refine ⟨by simp [h.main_of_free], fun j => ?_⟩
  rcases eq_or_ne j i with rfl | hj
  · simp
  · simpa [hj, h.worker_of_free j] using hj.symm

theorem unlockWorker (h : Excl owner b inside) (hi : inside i) :
    Excl none b (update inside i false) := by
  refine ⟨by simp [h.main_of_worker hi], fun j => ?_⟩
  rcases eq_or_ne j i with rfl | hj
  · simp
  · have hout : inside j = false := Bool.eq_false_iff.mpr fun hj' => hj (h.worker_unique hj' hi)
    simp [hj, hout]

/-- A step of a worker that stays inside, or outside. -/
theorem stepWorker {f : ι → α} {p : α → Bool} {a : α} (h : Excl owner b fun i => p (f i))
    (ha : p a = p (f i)) : Excl owner b fun j => p (update f i a j) := by
  have hf : (fun j => p (update f i a j)) = fun j => p (f j) := by
    funext j
    rcases eq_or_ne j i with rfl | hj
    · rw [update_self, ha]
    · rw [update_of_ne hj]
  rwa [hf]

/-- The rules for a worker, where `p` says which of its places are inside. -/
theorem lockWorker_of {f : ι → α} {p : α → Bool} {a : α} (h : Excl none b fun i => p (f i))
    (ha : p a = true) (i : ι) : Excl (some (.worker i)) b fun j => p (update f i a j) := by
  have hf : (fun j => p (update f i a j)) = update (fun j => p (f j)) i true := by
    rw [← ha]
    exact comp_update p f i a
  rw [hf]
  exact h.lockWorker i

theorem unlockWorker_of {f : ι → α} {p : α → Bool} {a : α} (h : Excl owner b fun i => p (f i))
    (hi : p (f i)) (ha : p a = false) : Excl none b fun j => p (update f i a j) := by
  have hf : (fun j => p (update f i a j)) = update (fun j => p (f j)) i false := by
    rw [← ha]
    exact comp_update p f i a
  rw [hf]
  exact h.unlockWorker hi

end Excl

/-! ### A step of one worker -/

section Step

variable [DecidableEq ι] {f : ι → α} {i : ι} {a : α}

theorem forall_update {p : ι → α → Prop} (hi : p i a) (h : ∀ j, p j (f j)) (j : ι) :
    p j (update f i a j) :=
  (forall_update_iff f p).mpr ⟨hi, fun j _ => h j⟩ j

/-- No wake-up is lost: as long as the counter that the main thread waits for is zero or some worker
will signal, a worker that changes the counter has to be one that will signal. -/
theorem signalled_update {p : α → Prop} {x y : Int} (h : x = 0 ∨ ∃ j, p (f j))
    (hcount : y = x ∨ p a) (hkeep : p (f i) → p a) : y = 0 ∨ ∃ j, p (update f i a j) := by
  rcases hcount with rfl | ha
  · refine h.imp_right fun ⟨j, hj⟩ => ⟨j, ?_⟩
    rcases eq_or_ne j i with rfl | hne
    · rw [update_self]
      exact hkeep hj
    · rwa [update_of_ne hne]
  · exact .inr ⟨i, by rwa [update_self]⟩

end Step

end Tlpi
