import Tlpi.Timers.ItimerspecFromStr

/-!
# Elapsed times (`demo_timerfd.c`)

The loop of `main` prints the time since the timer was started each time that expirations have been
read. The milliseconds are rounded after the seconds were split off.
-/

namespace Tlpi.Timers

open Tlpi.Num

/-- The arguments of the `printf` in the loop. -/
structure Report where
  secs : Int
  msecs : Int
  numExp : Nat
  totalExp : Nat
  deriving DecidableEq, Repr

/-- The line that is printed. -/
def Report.line (r : Report) : CString :=
  fmtInt r.secs ++ '.' :: fmtZeros 3 r.msecs ++ ": expirations read: ".toList ++
    fmtNat 0 ' ' r.numExp ++ "; total=".toList ++ fmtNat 0 ' ' r.totalExp ++ ['\n']

/-- `secs` and `nanosecs`, which have the type `int`. -/
def elapsed (start now : Timespec) : Int × Int :=
  let secs := wrap 32 (wrap 64 (now.tvSec - start.tvSec))
  let nanosecs := wrap 32 (wrap 64 (now.tvNsec - start.tvNsec))
  if nanosecs < 0 then (wrap 32 (secs - 1), wrap 32 (nanosecs + 1000000000)) else (secs, nanosecs)

/-- The body of the loop, after the expirations and the time were read. -/
def report (start now : Timespec) (numExp totalExp : Nat) : Report where
  secs := (elapsed start now).1
  msecs := (wrap 32 ((elapsed start now).2 + 500000)).tdiv 1000000
  numExp := numExp
  totalExp := totalExp

/-- The loop, given what each `read` and `clock_gettime` return; it waits in `read` when there is no
more. `totalExp` is a `uint64_t`. -/
def reports (maxExp : Nat) (start : Timespec) : Nat → List (Nat × Timespec) → List Report
  | _, [] => []
  | totalExp, (numExp, now) :: readings =>
    if totalExp < maxExp then
      let totalExp := (totalExp + numExp) % 2 ^ 64
      report start now numExp totalExp :: reports maxExp start totalExp readings
    else []

example : (reports 2 ⟨5, 900000000⟩ 0 [(1, ⟨6, 1000000⟩), (1, ⟨6, 900400000⟩), (1, ⟨8, 0⟩)]).map
    (fun r => String.ofList r.line) =
      ["0.101: expirations read: 1; total=1\n", "1.000: expirations read: 1; total=2\n"] := by decide

/-- A time that `clock_gettime` can return. -/
def Timespec.Normal (t : Timespec) : Prop := 0 ≤ t.tvNsec ∧ t.tvNsec < 1000000000

instance (t : Timespec) : Decidable t.Normal := inferInstanceAs (Decidable (_ ∧ _))

def Timespec.ns (t : Timespec) : Int := t.tvSec * 1000000000 + t.tvNsec

/-- The times whose difference is printed: `now` is not before `start`, and the difference of the
seconds is in the range of `int`. -/
structure Measurable (start now : Timespec) : Prop where
  start_normal : start.Normal
  now_normal : now.Normal
  le : start.ns ≤ now.ns
  int : InInt (now.tvSec - start.tvSec)

/-- A time in nanoseconds, rounded to the nearest millisecond. -/
def toMs (ns : Int) : Int := (ns + 500000) / 1000000

/-- The printed seconds and milliseconds are those of the elapsed time. -/
structure PrintsRight (start now : Timespec) (r : Report) : Prop where
  nonneg : 0 ≤ r.msecs
  lt : r.msecs < 1000
  sum : r.secs * 1000 + r.msecs = toMs (now.ns - start.ns)

variable {start now : Timespec}

/-- The elapsed time is split into seconds and nanoseconds. -/
theorem elapsed_spec (h : Measurable start now) :
    elapsed start now = ((now.ns - start.ns) / 1000000000, (now.ns - start.ns) % 1000000000) := by
  obtain ⟨⟨hs0, hs1⟩, ⟨hn0, hn1⟩, hle, ⟨hmin, hmax⟩⟩ := h
  simp only [Timespec.ns] at hle ⊢
  have hsecs : wrap 32 (wrap 64 (now.tvSec - start.tvSec)) = now.tvSec - start.tvSec := by
    rw [wrap_eq_self (w := 63) (by omega) (by omega), wrap_eq_self (w := 31) (by omega) (by omega)]
  have hnsecs : wrap 32 (wrap 64 (now.tvNsec - start.tvNsec)) = now.tvNsec - start.tvNsec := by
    rw [wrap_eq_self (w := 63) (by omega) (by omega), wrap_eq_self (w := 31) (by omega) (by omega)]
  rw [elapsed, hsecs, hnsecs]
  split
  · rw [wrap_eq_self (w := 31) (by omega) (by omega), wrap_eq_self (w := 31) (by omega) (by omega)]
    exact Prod.ext (by dsimp only; omega) (by dsimp only; omega)
  · exact Prod.ext (by dsimp only; omega) (by dsimp only; omega)

theorem report_msecs (h : Measurable start now) (numExp totalExp : Nat) :
    (report start now numExp totalExp).msecs =
      ((now.ns - start.ns) % 1000000000 + 500000) / 1000000 := by
  rw [report, elapsed_spec h]
  dsimp only
  rw [wrap_eq_self (w := 31) (by omega) (by omega), Int.tdiv_eq_ediv_of_nonneg (by omega)]

/-- Every line that the loop prints is the report for one of the readings. -/
theorem mem_reports {maxExp totalExp : Nat} {readings : List (Nat × Timespec)} {r : Report}
    (h : r ∈ reports maxExp start totalExp readings) :
    ∃ numExp now total, (numExp, now) ∈ readings ∧ r = report start now numExp total := by
  induction readings generalizing totalExp with
  | nil => cases h
  | cons reading readings ih =>
    obtain ⟨numExp, now⟩ := reading
    rw [reports] at h
    split at h
    · rcases List.mem_cons.mp h with rfl | h
      · exact ⟨numExp, now, _, List.mem_cons_self, rfl⟩
      · obtain ⟨numExp, now, total, hmem, rfl⟩ := ih h
        exact ⟨numExp, now, total, List.mem_cons_of_mem _ hmem, rfl⟩
    · cases h

/-- Each line of the loop is the report for a time that was read, and for all times that can be
measured the report is right, except in the last half of a millisecond before a full second, where
1000 milliseconds are printed. -/
theorem reports_printsRight_iff (maxExp totalExp : Nat) (start : Timespec)
    (readings : List (Nat × Timespec)) :
    (∀ r ∈ reports maxExp start totalExp readings, ∃ numExp now total,
      (numExp, now) ∈ readings ∧ r = report start now numExp total) ∧
    ∀ now numExp total, Measurable start now →
      (PrintsRight start now (report start now numExp total) ↔
        (now.ns - start.ns) % 1000000000 < 999500000) := by
  refine ⟨fun r => mem_reports, fun now numExp total h => ?_⟩
  have hmsecs := report_msecs h numExp total
  have hsecs : (report start now numExp total).secs = (now.ns - start.ns) / 1000000000 := by
    rw [report, elapsed_spec h]
  constructor
  · intro hright
    have hlt := hright.lt
    rw [hmsecs] at hlt
    omega
  · intro hcond
    refine ⟨?_, ?_, ?_⟩
    · rw [hmsecs]
      omega
    · rw [hmsecs]
      omega
    · rw [hmsecs, hsecs, toMs]
      omega

/-- An elapsed time that needs a borrow. -/
theorem reports_printsRight_iff_borrow :
    PrintsRight ⟨5, 900000000⟩ ⟨7, 100499999⟩ (report ⟨5, 900000000⟩ ⟨7, 100499999⟩ 1 1) :=
  ((reports_printsRight_iff 1 0 ⟨5, 900000000⟩ []).2 ⟨7, 100499999⟩ 1 1
    ⟨by decide, by decide, by decide, by decide⟩).mpr (by decide)

/-- The line for an elapsed time of 0.9995 seconds begins with `0.1000`. -/
theorem report_not_printsRight :
    (report ⟨5, 0⟩ ⟨5, 999500000⟩ 1 1).line = "0.1000: expirations read: 1; total=1\n".toList ∧
      ¬PrintsRight ⟨5, 0⟩ ⟨5, 999500000⟩ (report ⟨5, 0⟩ ⟨5, 999500000⟩ 1 1) :=
  ⟨by decide, fun h => absurd h.lt (by decide)⟩

end Tlpi.Timers
