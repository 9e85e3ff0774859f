import Tlpi.Lib.Decimal
import Tlpi.Lib.Heap

/-!
# Timer settings in text (`itimerspec_from_str.c`)

`itimerspecFromStr` reads `sec[/nsec][:isec[/insec]]`. It works on a copy of the string, which it
ends in place at the separators it finds: first at the colon, so that a slash behind it is not found
when the value is read. The copy is taken to succeed, which the function does not check.
-/

namespace Tlpi.Timers

open Tlpi.Num

structure Timespec where
  tvSec : Int
  tvNsec : Int
  deriving DecidableEq, Repr

structure Itimerspec where
  itValue : Timespec
  itInterval : Timespec
  deriving DecidableEq, Repr

/-- One of the two parts: look for the slash behind `p`, end the string there, and convert what
stands before and behind it. -/
def readPart (h : Heap) (p : Ptr) : Heap × Timespec :=
  let sptr := h.strchr p '/'
  let h := h.terminate sptr
  (h, ⟨atoi (h.cstr p), sptr.elim 0 fun sptr => atoi (h.cstr (sptr.add 1))⟩)

def itimerspecFromStr (h : Heap) (str : Ptr) : Heap × Itimerspec :=
  let (h, dupstr) := h.strdup str
  let cptr := h.strchr dupstr ':'
  let h := h.terminate cptr
  let (h, itValue) := readPart h dupstr
  match cptr with
  | none => (h.free dupstr, ⟨itValue, 0, 0⟩)
  | some cptr =>
    let (h, itInterval) := readPart h (cptr.add 1)
    (h.free dupstr, ⟨itValue, itInterval⟩)

/-! ### What is read -/

/-- A part by the slash in it. -/
def timePart (s : CString) : Timespec :=
  match cut '/' s with
  | none => ⟨atoi s, 0⟩
  | some (sec, nsec) => ⟨atoi sec, atoi nsec⟩

/-- The parts by the colon between them. -/
def timeParts (s : CString) : Itimerspec :=
  match cut ':' s with
  | none => ⟨timePart s, 0, 0⟩
  | some (value, interval) => ⟨timePart value, timePart interval⟩

variable {h : Heap} {p str : Ptr} {pre s post : CString}

/-- Only the block of `p` changes, and what stands around the string stays where it is. -/
theorem readPart_spec (H : h.Holds p pre s post) :
    (readPart h p).2 = timePart s ∧
      (∃ s' : CString, s'.length = s.length ∧
        (readPart h p).1.blocks p.block = pre ++ (s' ++ '\x00' :: post)) ∧
      ∀ b, b ≠ p.block → (readPart h p).1.blocks b = h.blocks b := by
  unfold readPart timePart
  cases hc : cut '/' s with
  | none =>
    rw [H.strchr_eq_none hc]
    refine ⟨?_, ⟨s, rfl, H.block⟩, fun _ _ => rfl⟩
    dsimp only [Heap.terminate, Option.elim]
    rw [H.cstr]
  | some xy =>
    obtain ⟨x, y⟩ := xy
    obtain ⟨Hx, Hy⟩ := H.store hc
    rw [H.strchr_eq_some hc]
    refine ⟨?_, ⟨x ++ '\x00' :: y, ?_, ?_⟩, fun b hb => Heap.store_blocks_of_ne hb⟩
    · dsimp only [Heap.terminate, Option.elim]
      rw [Hx.cstr, show (p.add x.length).add 1 = p.add (x.length + 1) from rfl, Hy.cstr]
    · rw [(cut_eq_some.mp hc).1]
      simp
    · refine Hx.block.trans ?_
      simp

/-- The result depends on the string only, and the blocks that were in use keep their contents. -/
theorem itimerspecFromStr_spec (h : Heap) (str : Ptr) :
    (itimerspecFromStr h str).2 = timeParts (h.cstr str) ∧
      ∀ b < h.next, (itimerspecFromStr h str).1.blocks b = h.blocks b := by
  have H := h.holds_strdup str
  have hframe (b : Nat) (hb : b < h.next) :
      b ≠ (h.strdup str).2.block ∧ (h.strdup str).1.blocks b = h.blocks b := by
    have hne : b ≠ h.next := by omega
    exact ⟨hne, Function.update_of_ne hne ..⟩
  unfold itimerspecFromStr timeParts
  revert H hframe
  generalize h.strdup str = dup
  obtain ⟨h₁, dupstr⟩ := dup
  dsimp only
  intro H hframe
  cases hc : cut ':' (h.cstr str) with
  | none =>
    obtain ⟨hvalue, -, hother⟩ := readPart_spec H
    rw [H.strchr_eq_none hc]
    refine ⟨congrArg (Itimerspec.mk · _) hvalue, fun b hb => ?_⟩
    obtain ⟨hne, hb⟩ := hframe b hb
    exact (Function.update_of_ne hne ..).trans ((hother b hne).trans hb)
  | some vi =>
    obtain ⟨v, i⟩ := vi
    obtain ⟨Hv, Hi⟩ := H.store hc
    rw [H.strchr_eq_some hc]
    obtain ⟨hvalue, ⟨v', hlen, hblock⟩, hother⟩ := readPart_spec Hv
    have Hi' : (readPart (h₁.terminate (some (dupstr.add v.length))) dupstr).1.Holds
        ((dupstr.add v.length).add 1) (v' ++ ['\x00']) i [] := by
      refine ⟨hblock.trans (by simp), ?_, Hi.nul⟩
      simp [Ptr.add, H.off, hlen]
    obtain ⟨hinterval, -, hother'⟩ := readPart_spec Hi'
    refine ⟨congrArg₂ Itimerspec.mk hvalue hinterval, fun b hb => ?_⟩
    obtain ⟨hne, hb⟩ := hframe b hb
    refine (Function.update_of_ne hne ..).trans ((hother' b hne).trans ((hother b hne).trans ?_))
    exact (Heap.store_blocks_of_ne (p := dupstr.add v.length) hne).trans hb

/-! ### The notation -/

def InInt (x : Int) : Prop := -2 ^ 31 ≤ x ∧ x < 2 ^ 31

instance (x : Int) : Decidable (InInt x) := inferInstanceAs (Decidable (_ ∧ _))

/-- `sec[/nsec]`. -/
def printPart (sec : Int) (nsec : Option Int) : CString :=
  fmtInt sec ++ nsec.elim [] fun nsec => '/' :: fmtInt nsec

/-- The components of a setting, with those that are omitted. -/
structure Setting where
  sec : Int
  nsec : Option Int
  interval : Option (Int × Option Int)

namespace Setting

/-- `sec[/nsec][:isec[/insec]]`. -/
def print (t : Setting) : CString :=
  printPart t.sec t.nsec ++ t.interval.elim [] fun (isec, insec) => ':' :: printPart isec insec

structure InRange (t : Setting) : Prop where
  sec : InInt t.sec
  nsec : ∀ nsec ∈ t.nsec, InInt nsec
  interval : ∀ isec insec, t.interval = some (isec, insec) →
    InInt isec ∧ ∀ nsec ∈ insec, InInt nsec

/-- The components with 0 for each one that is omitted. -/
def spec (t : Setting) : Itimerspec where
  itValue := ⟨t.sec, t.nsec.getD 0⟩
  itInterval := t.interval.elim ⟨0, 0⟩ fun (isec, insec) => ⟨isec, insec.getD 0⟩

end Setting

theorem notMem_fmtInt {c : Char} {x : Int} (hc : c.isDigit = false) (hm : c ≠ '-') :
    c ∉ fmtInt x := fun h => by
  rcases mem_fmtInt h with h | h
  · rw [h] at hc
    cases hc
  · exact hm h

theorem notMem_printPart {c : Char} {sec : Int} {nsec : Option Int} (hc : c.isDigit = false)
    (hm : c ≠ '-') (hs : c ≠ '/') : c ∉ printPart sec nsec := by
  cases nsec with
  | none => simpa [printPart] using notMem_fmtInt hc hm
  | some nsec => simp [printPart, notMem_fmtInt hc hm, hs]

theorem timePart_printPart {sec : Int} {nsec : Option Int} (hsec : InInt sec)
    (hnsec : ∀ x ∈ nsec, InInt x) : timePart (printPart sec nsec) = ⟨sec, nsec.getD 0⟩ := by
  have hslash : '/' ∉ fmtInt sec := notMem_fmtInt (by decide) (by decide)
  unfold timePart printPart
  cases nsec with
  | none =>
    rw [Option.elim_none, List.append_nil, cut_eq_none.mpr hslash]
    exact congrArg (Timespec.mk · 0) (atoi_fmtInt hsec)
  | some nsec =>
    rw [Option.elim_some, cut_append hslash]
    exact congrArg₂ Timespec.mk (atoi_fmtInt hsec) (atoi_fmtInt (hnsec nsec rfl))

theorem timeParts_print {t : Setting} (ht : t.InRange) : timeParts t.print = t.spec := by
  have hcolon : ':' ∉ printPart t.sec t.nsec := notMem_printPart (by decide) (by decide) (by decide)
  have hvalue := timePart_printPart ht.sec ht.nsec
  unfold timeParts Setting.print Setting.spec
  cases hi : t.interval with
  | none =>
    rw [Option.elim_none, List.append_nil, cut_eq_none.mpr hcolon]
    exact congrArg (Itimerspec.mk · ⟨0, 0⟩) hvalue
  | some interval =>
    obtain ⟨isec, insec⟩ := interval
    obtain ⟨hisec, hinsec⟩ := ht.interval isec insec hi
    rw [Option.elim_some, cut_append hcolon]
    exact congrArg₂ Itimerspec.mk hvalue (timePart_printPart hisec hinsec)

/-- For all components in the range of `int` and every choice of omitted ones, the text that is
printed from them is read back as the components, with 0 for the omitted ones; whatever stands behind
the first colon, the value is that of the part before it; and the string of the caller keeps its
contents, as does all other memory in use. -/
theorem itimerspecFromStr_inverts :
    (∀ (h : Heap) (str : Ptr) (t : Setting), t.InRange → h.cstr str = t.print →
      (itimerspecFromStr h str).2 = t.spec) ∧
    (∀ (h h' : Heap) (str str' : Ptr) (value interval : CString), ':' ∉ value →
      h.cstr str = value ++ ':' :: interval → h'.cstr str' = value →
      (itimerspecFromStr h str).2.itValue = (itimerspecFromStr h' str').2.itValue) ∧
    ∀ (h : Heap) (str : Ptr), str.block < h.next →
      (itimerspecFromStr h str).1.cstr str = h.cstr str ∧
        ∀ b < h.next, (itimerspecFromStr h str).1.blocks b = h.blocks b := by
  refine ⟨fun h str t ht hstr => ?_, fun h h' str str' value interval hcolon hstr hstr' => ?_,
    fun h str hused => ?_⟩
  · rw [(itimerspecFromStr_spec h str).1, hstr, timeParts_print ht]
  · rw [(itimerspecFromStr_spec h str).1, (itimerspecFromStr_spec h' str').1, hstr, hstr', timeParts,
      timeParts, cut_append hcolon, cut_eq_none.mpr hcolon]
  · have hblocks := (itimerspecFromStr_spec h str).2
    refine ⟨?_, hblocks⟩
    rw [Heap.cstr, hblocks _ hused, Heap.cstr]

/-- The value without nanoseconds, before an interval that has some. -/
theorem itimerspecFromStr_inverts_interval :
    (itimerspecFromStr ⟨fun _ => "-2:7/500\x00".toList, 1⟩ ⟨0, 0⟩).2 = ⟨⟨-2, 0⟩, ⟨7, 500⟩⟩ ∧
      (itimerspecFromStr ⟨fun _ => "-2:7/500\x00".toList, 1⟩ ⟨0, 0⟩).1.cstr ⟨0, 0⟩ =
        "-2:7/500".toList := by
  constructor
  · refine itimerspecFromStr_inverts.1 _ _ ⟨-2, none, some (7, some 500)⟩ ⟨by decide, nofun, ?_⟩
      (by decide)
    rintro _ _ ⟨⟩
    exact ⟨by decide, by simpa using (by decide : InInt 500)⟩
  · exact (itimerspecFromStr_inverts.2.2 _ ⟨0, 0⟩ (by decide)).1.trans (by decide)

end Tlpi.Timers
