import Mathlib.Data.List.Basic
import Mathlib.Logic.Function.Basic
import Tlpi.Lib.Machine

/-!
# Terminal settings and signals (`tty/test_tty_functions.c`, `tty/tty_functions.c`)

The program changes the settings of the terminal and must give them back before it stops or
terminates. Its handlers can interrupt it, and each other, between any two calls.
-/

namespace Tlpi.TestTty

open Function

abbrev Flags := BitVec 32

def BRKINT : Flags := 0x2
def ICRNL : Flags := 0x100
def IGNBRK : Flags := 0x1
def IGNCR : Flags := 0x80
def INLCR : Flags := 0x40
def INPCK : Flags := 0x10
def ISTRIP : Flags := 0x20
def IXON : Flags := 0x400
def PARMRK : Flags := 0x8
def OPOST : Flags := 0x1
def ECHO : Flags := 0x8
def ICANON : Flags := 0x2
def IEXTEN : Flags := 0x8000
def ISIG : Flags := 0x1

abbrev VTIME : Nat := 5
abbrev VMIN : Nat := 6
abbrev NCCS : Nat := 32

structure Termios where
  iflag : Flags
  oflag : Flags
  cflag : Flags
  lflag : Flags
  cc : Vector UInt8 NCCS
  deriving DecidableEq

/-- The settings of `ttySetCbreak`. -/
def Termios.cbreak (t : Termios) : Termios :=
  { t with
    lflag := t.lflag &&& ~~~(ICANON ||| ECHO) ||| ISIG
    iflag := t.iflag &&& ~~~ICRNL
    cc := (t.cc.set VMIN 1).set VTIME 0 }

/-- The settings of `ttySetRaw`. -/
def Termios.raw (t : Termios) : Termios :=
  { t with
    lflag := t.lflag &&& ~~~(ICANON ||| ISIG ||| IEXTEN ||| ECHO)
    iflag := t.iflag &&& ~~~(BRKINT ||| ICRNL ||| IGNBRK ||| IGNCR ||| INLCR ||| INPCK |||
      ISTRIP ||| IXON ||| PARMRK)
    oflag := t.oflag &&& ~~~OPOST
    cc := (t.cc.set VMIN 1).set VTIME 0 }

inductive Sig where
  | int
  | quit
  | tstp
  | term
  deriving DecidableEq

inductive Disposition where
  | dfl
  | ign
  | handler
  | tstpHandler
  deriving DecidableEq

/-- The next call of `tstpHandler`; `ourTermios` has been read before all but the first. -/
inductive Tstp where
  | tcgetattr
  | restore
  | signal
  | raise
  | unblock
  /-- Execution resumes here after `SIGCONT`. -/
  | reblock
  | sigaction
  | saveUser
  | setOurs
  | return
  deriving DecidableEq

/-- A handler that runs. -/
inductive Frame where
  /-- `handler`, before or after its `tcsetattr`. -/
  | handler (sig : Sig) (restored : Bool)
  | tstpHandler (pc : Tstp) (ourTermios : Termios)
  deriving DecidableEq

/-- The next step of `main`. -/
inductive Main where
  | tcgetattr
  | tcsetattr (t : Termios)
  /-- The signals that are left to be handled. -/
  | install (sigs : List Sig)
  | read
  | restore
  | exit
  deriving DecidableEq

inductive Status where
  | running
  | stopped
  | terminated
  deriving DecidableEq

structure State where
  /-- The settings of the terminal. -/
  term : Termios
  /-- The settings that the user has made last. -/
  user : Termios
  /-- The settings that the program has made. -/
  ours : Termios
  userTermios : Termios
  disposition : Sig → Disposition
  main : Main
  /-- The handlers that run, the innermost one first. -/
  frames : List Frame
  status : Status
  /-- What has been printed. -/
  out : List UInt8

inductive Label where
  /-- A step of `main`, with what `read` delivers. -/
  | main (ch : Option UInt8)
  | handler
  | signal (sig : Sig)
  /-- The user changes the settings while the program is stopped. -/
  | user (t : Termios)
  | cont

/-- A handler blocks its own signal; `tstpHandler` does not for a moment. -/
def Frame.blocks (sig : Sig) : Frame → Bool
  | .handler sig' _ => sig = sig'
  | .tstpHandler pc _ => sig = .tstp && pc != .reblock

def State.blocked (s : State) (sig : Sig) : Bool := s.frames.any (·.blocks sig)

/-- The signals that get a handler, in this order. -/
def handled (cbreak : Bool) : List Sig := if cbreak then [.quit, .int, .tstp, .term] else [.term]

def handlerOf : Sig → Disposition
  | .tstp => .tstpHandler
  | _ => .handler

/-- What the loop prints for a character. -/
def echo (ch : UInt8) : List UInt8 :=
  if 65 ≤ ch ∧ ch ≤ 90 then [ch + 32]
  else if 97 ≤ ch ∧ ch ≤ 122 then [ch]
  else if ch = 10 ∨ ch = 13 then [ch]
  else if ch < 32 ∨ ch = 127 then [94, ch ^^^ 64]
  else [42]

def main (cbreak : Bool) (s : State) (ch : Option UInt8) : State :=
  match s.main with
  | .tcgetattr => { s with userTermios := s.term, main := .tcsetattr s.term }
  | .tcsetattr t =>
    let t := if cbreak then t.cbreak else t.raw
    { s with term := t, ours := t, main := .install (handled cbreak) }
  | .install [] => { s with main := .read }
  | .install (sig :: sigs) =>
    -- only `SIGTERM` is handled even if it was ignored before
    let disposition := if sig ≠ .term ∧ s.disposition sig = .ign then s.disposition
      else update s.disposition sig (handlerOf sig)
    { s with disposition := disposition, main := .install sigs }
  | .read =>
    match ch with
    | none => { s with main := .restore }
    | some ch => { s with out := s.out ++ echo ch, main := if ch = 113 then .restore else .read }
  | .restore => { s with term := s.userTermios, main := .exit }
  | .exit => { s with status := .terminated }

def tstpHandler (s : State) (pc : Tstp) (ourTermios : Termios) (frames : List Frame) : State :=
  let next (pc : Tstp) : List Frame := .tstpHandler pc ourTermios :: frames
  match pc with
  | .tcgetattr => { s with frames := .tstpHandler .restore s.term :: frames }
  | .restore => { s with term := s.userTermios, frames := next .signal }
  | .signal =>
    { s with disposition := update s.disposition .tstp .dfl, frames := next .raise }
  | .raise => { s with frames := next .unblock }
  | .unblock => { s with status := .stopped, frames := next .reblock }
  | .reblock => { s with frames := next .sigaction }
  | .sigaction =>
    { s with disposition := update s.disposition .tstp .tstpHandler, frames := next .saveUser }
  | .saveUser => { s with userTermios := s.term, frames := next .setOurs }
  | .setOurs => { s with term := ourTermios, frames := next .return }
  | .return => { s with frames := frames }

/-- A step of the innermost handler. -/
def handler (s : State) : Option State :=
  match s.frames with
  | [] => none
  | .handler sig false :: frames =>
    some { s with term := s.userTermios, frames := .handler sig true :: frames }
  | .handler _ true :: _ => some { s with status := .terminated }
  | .tstpHandler pc ourTermios :: frames => some (tstpHandler s pc ourTermios frames)

/-- What a signal does that is not blocked. -/
def deliver (s : State) (sig : Sig) : State :=
  match s.disposition sig with
  | .ign => s
  | .dfl => { s with status := if sig = .tstp then .stopped else .terminated }
  | .handler => { s with frames := .handler sig false :: s.frames }
  | .tstpHandler => { s with frames := .tstpHandler .tcgetattr s.term :: s.frames }

def step (cbreak : Bool) (s : State) (a : Label) : Option State :=
  match s.status, a with
  | .running, .main ch => match s.frames with
    | [] => some (main cbreak s ch)
    | _ => none
  | .running, .handler => handler s
  | .running, .signal sig => if s.blocked sig then none else some (deliver s sig)
  | .stopped, .user t => some { s with term := t, user := t }
  | .stopped, .cont => some { s with status := .running }
  | _, _ => none

def machine (cbreak : Bool) : Machine State Label := ⟨step cbreak⟩

def State.init (term : Termios) (ignored : Sig → Bool) : State where
  term := term
  user := term
  ours := term
  userTermios := term
  disposition sig := if ignored sig then .ign else .dfl
  main := .tcgetattr
  frames := []
  status := .running
  out := []

/-! ### Whose settings the terminal has -/

/-- The handler has given the terminal back and not yet taken it again. -/
def Frame.user : Frame → Bool
  | .handler _ restored => restored
  | .tstpHandler pc _ => pc ∉ [.tcgetattr, .restore, .return]

/-- The user may have changed the settings and `userTermios` does not have the changes. -/
def Frame.resumed : Frame → Bool
  | .handler .. => false
  | .tstpHandler pc _ => pc ∈ [.reblock, .sigaction, .saveUser]

def Frame.isTstp : Frame → Bool
  | .handler .. => false
  | .tstpHandler .. => true

/-- Before `main` takes the terminal, or after it has given it back. -/
def Main.user : Main → Bool
  | .tcgetattr | .tcsetattr _ | .exit => true
  | .install _ | .read | .restore => false

def Main.early : Main → Bool
  | .tcgetattr | .tcsetattr _ => true
  | _ => false

def State.UserMode (s : State) : Prop := s.main.user = true ∨ ∃ f ∈ s.frames, f.user = true

instance (s : State) : Decidable s.UserMode := inferInstanceAs (Decidable (_ ∨ _))

/-- A signal with this disposition does not come at a wrong moment: no default action while the
program has the terminal, and none that stops it where it has read the user's settings and may still
restore them, no handler that terminates before `userTermios` is up to date again, and no stop by
`tstpHandler` on the way out. -/
def State.Lets (s : State) (sig : Sig) : Disposition → Prop
  | .ign => True
  | .dfl =>
    if sig = .tstp then s.main = .tcgetattr ∨ ∃ f ∈ s.frames, f.resumed = true else s.UserMode
  | .handler => ∀ f ∈ s.frames, f.resumed = false
  | .tstpHandler => s.main ≠ .exit ∧ ∀ f ∈ s.frames, f.user = false

def Timely (s : State) : Label → Prop
  | .signal sig => s.Lets sig (s.disposition sig)
  | _ => True

instance (s : State) (sig : Sig) : DecidablePred (s.Lets sig)
  | .ign => .isTrue trivial
  | .dfl =>
    inferInstanceAs (Decidable (if sig = .tstp then s.main = .tcgetattr ∨
      ∃ f ∈ s.frames, f.resumed = true else s.UserMode))
  | .handler => inferInstanceAs (Decidable (∀ f ∈ s.frames, f.resumed = false))
  | .tstpHandler => inferInstanceAs (Decidable (_ ∧ _))

instance (s : State) : DecidablePred (Timely s)
  | .signal sig => inferInstanceAs (Decidable (s.Lets sig (s.disposition sig)))
  | .main _ | .handler | .user _ | .cont => .isTrue trivial

structure Inv (s : State) : Prop where
  user : s.UserMode → s.term = s.user
  ours : ¬s.UserMode → s.term = s.ours
  userTermios : s.main ≠ .tcgetattr → (∀ f ∈ s.frames, f.resumed = false) →
    s.userTermios = s.user
  tcsetattr : ∀ t, s.main = .tcsetattr t → t = s.user
  early : s.main.early = true →
    s.frames = [] ∧ ∀ sig, s.disposition sig = .dfl ∨ s.disposition sig = .ign
  exit : s.main = .exit → ∀ f ∈ s.frames, f.isTstp = false
  ourTermios : ∀ pc t, .tstpHandler pc t ∈ s.frames → pc ≠ .tcgetattr → t = s.ours
  dfl : ∀ pc t, .tstpHandler pc t ∈ s.frames → pc ∈ [.raise, .unblock, .reblock, .sigaction] →
    s.disposition .tstp = .dfl
  kind : ∀ sig, s.disposition sig = .tstpHandler → sig = .tstp
  /-- What may interrupt what. -/
  nested : s.frames.Pairwise fun f g =>
    (f.isTstp = true → g.user = false) ∧ (f.isTstp = false → g.resumed = false)
  stopped : s.status = .stopped → s.main = .tcgetattr ∨ ∃ f ∈ s.frames, f.resumed = true
  ended : s.status ≠ .running → s.UserMode

section

variable {cbreak : Bool} {s t : State} {f : Frame} {fs : List Frame} {pc pc' : Tstp}
  {ourTermios : Termios}

theorem Frame.user_of_resumed (h : f.resumed = true) : f.user = true := by
  cases f with
  | handler => cases h
  | tstpHandler pc t => cases pc <;> first | rfl | cases h

theorem Frame.resumed_of_user (h : f.user = false) : f.resumed = false := by
  refine Bool.eq_false_iff.mpr fun hr => ?_
  rw [user_of_resumed hr] at h
  cases h

theorem inv_init (term : Termios) (ignored : Sig → Bool) : Inv (.init term ignored) where
  user _ := rfl
  ours _ := rfl
  userTermios _ _ := rfl
  tcsetattr _ h := by cases h
  early _ := ⟨rfl, fun sig => by cases h : ignored sig <;> simp [State.init, h]⟩
  exit h := by cases h
  ourTermios _ _ h := by cases h
  dfl _ _ h := by cases h
  kind sig h := by cases hi : ignored sig <;> simp [State.init, hi] at h
  nested := .nil
  stopped h := by cases h
  ended h := absurd rfl h

theorem userMode_iff (hs : s.frames = f :: fs) (hmain : s.main.user = false)
    (hbelow : ∀ g ∈ fs, g.user = false) : s.UserMode ↔ f.user = true := by
  rw [State.UserMode, hs, List.exists_mem_cons_iff, hmain]
  constructor
  · rintro (h | h | ⟨g, hg, h⟩)
    · cases h
    · exact h
    · rw [hbelow g hg] at h
      cases h
  · exact fun h => .inr (.inl h)

/-- Below `tstpHandler` the program has the terminal. -/
theorem Inv.below (I : Inv s) (hs : s.frames = .tstpHandler pc ourTermios :: fs) :
    s.main.user = false ∧ (∀ g ∈ fs, g.user = false) ∧
      (s.UserMode ↔ (Frame.tstpHandler pc ourTermios).user = true) := by
  have hmain : s.main.user = false := by
    cases h : s.main with
    | tcgetattr => simpa [hs] using (I.early (by rw [h]; rfl)).1
    | tcsetattr t => simpa [hs] using (I.early (by rw [h]; rfl)).1
    | exit => simpa [hs, Frame.isTstp] using I.exit h
    | _ => rfl
  have hnested := I.nested
  rw [hs, List.pairwise_cons] at hnested
  have hbelow : ∀ g ∈ fs, g.user = false := fun g hg => (hnested.1 g hg).1 rfl
  exact ⟨hmain, hbelow, userMode_iff hs hmain hbelow⟩

/-- A step of `tstpHandler` that stays in it. -/
theorem Inv.tstp {t' : Termios} (I : Inv s) (hs : s.frames = .tstpHandler pc ourTermios :: fs)
    (ht : t.frames = .tstpHandler pc' t' :: fs) (hmain : t.main = s.main)
    (hkind : ∀ sig, t.disposition sig = .tstpHandler → sig = .tstp)
    (hours : t.ours = s.ours)
    (hterm : t.term = if (Frame.tstpHandler pc' t').user then t.user else t.ours)
    (hsaved : (Frame.tstpHandler pc' t').resumed = false → t.userTermios = t.user)
    (hour : pc' ≠ .tcgetattr → t' = t.ours)
    (hdfl : pc' ∈ [.raise, .unblock, .reblock, .sigaction] → t.disposition .tstp = .dfl)
    (hstopped : t.status ≠ .running → (Frame.tstpHandler pc' t').resumed = true) : Inv t := by
  obtain ⟨hm, hbelow, -⟩ := I.below hs
  have hmode := userMode_iff ht (hmain ▸ hm) hbelow
  have hnested := I.nested
  rw [hs, List.pairwise_cons] at hnested
  have hne : ∀ u, t.main ≠ .tcsetattr u := fun u h => by
    rw [← hmain, h] at hm
    cases hm
  refine {
    user := fun h => by rw [hterm, if_pos (hmode.mp h)]
    ours := fun h => by rw [hterm, if_neg fun hu => h (hmode.mpr hu)]
    userTermios := fun _ h => hsaved (h _ (by simp [ht]))
    tcsetattr := fun u h => absurd h (hne u)
    early := fun h => ?_
    exit := fun h => ?_
    ourTermios := fun pc u hu hpc => ?_
    dfl := fun pc u hu hpc => ?_
    kind := hkind
    nested := ?_
    stopped := fun h => .inr ⟨_, by simp [ht], hstopped (by simp [h])⟩
    ended := fun h => hmode.mpr (Frame.user_of_resumed (hstopped h)) }
  · rw [hmain] at h
    have hnil := (I.early h).1
    rw [hs] at hnil
    cases hnil
  · rw [← hmain, h] at hm
    cases hm
  · rw [ht, List.mem_cons] at hu
    rcases hu with h | h
    · cases h
      exact hour hpc
    · rw [hours]
      exact I.ourTermios pc u (by simp [hs, h]) hpc
  · rw [ht, List.mem_cons] at hu
    rcases hu with h | h
    · cases h
      exact hdfl hpc
    · have := hbelow _ h
      cases pc <;> first | (cases this; done) | (simp at hpc)
  · rw [ht, List.pairwise_cons]
    exact hnested

/-- `tstpHandler` returns. -/
theorem Inv.tail (I : Inv s) (hs : s.frames = .tstpHandler .return ourTermios :: fs)
    (hrun : s.status = .running) : Inv { s with frames := fs } := by
  obtain ⟨hm, hbelow, hmode⟩ := I.below hs
  have hnested := I.nested
  rw [hs, List.pairwise_cons] at hnested
  have hnot : ¬State.UserMode { s with frames := fs } := by
    rintro (h | ⟨g, hg, h⟩)
    · exact Bool.noConfusion (h.symm.trans hm)
    · exact Bool.noConfusion (h.symm.trans (hbelow g hg))
  have hterm : s.term = s.ours := I.ours fun h => by
    have := hmode.mp h
    cases this
  refine {
    user := fun h => absurd h hnot
    ours := fun _ => hterm
    userTermios := fun h hr => I.userTermios h ?_
    tcsetattr := I.tcsetattr
    early := fun h => ?_
    exit := fun h g hg => I.exit h g (by simp [hs, hg])
    ourTermios := fun pc t h => I.ourTermios pc t (by simp [hs, h])
    dfl := fun pc t h => I.dfl pc t (by simp [hs, h])
    kind := I.kind
    nested := hnested.2
    stopped := fun h => by cases hrun.symm.trans h
    ended := fun h => absurd hrun h }
  · rw [hs, List.forall_mem_cons]
    exact ⟨rfl, hr⟩
  · have hnil := (I.early h).1
    rw [hs] at hnil
    cases hnil

theorem Inv.tstpHandler (I : Inv s) (hs : s.frames = .tstpHandler pc ourTermios :: fs)
    (hrun : s.status = .running) : Inv (tstpHandler s pc ourTermios fs) := by
  obtain ⟨hm, hbelow, hmode⟩ := I.below hs
  have hmem : Frame.tstpHandler pc ourTermios ∈ s.frames := by simp [hs]
  have hour := I.ourTermios pc ourTermios hmem
  have hdfl := I.dfl pc ourTermios hmem
  have hstatus : s.status ≠ .running → ∀ b : Bool, b = true := fun h => absurd hrun h
  have huser : (Frame.tstpHandler pc ourTermios).user = true → s.term = s.user := fun h =>
    I.user (hmode.mpr h)
  have hours : (Frame.tstpHandler pc ourTermios).user = false → s.term = s.ours := fun h =>
    I.ours fun h' => Bool.noConfusion (h.symm.trans (hmode.mp h'))
  have hsaved : (Frame.tstpHandler pc ourTermios).resumed = false → s.userTermios = s.user := by
    refine fun h => I.userTermios (fun h' => ?_) ?_
    · rw [h'] at hm
      cases hm
    · rw [hs, List.forall_mem_cons]
      exact ⟨h, fun g hg => Frame.resumed_of_user (hbelow g hg)⟩
  have hkind : ∀ d sig, update s.disposition .tstp d sig = .tstpHandler → sig = .tstp := by
    intro d sig h
    by_contra hne
    rw [update_of_ne hne] at h
    exact hne (I.kind sig h)
  cases pc with
  | tcgetattr =>
    exact I.tstp hs rfl rfl I.kind rfl (hours rfl) (fun _ => hsaved rfl) (fun _ => hours rfl)
      (fun h => by simp at h) (fun h => hstatus h _)
  | restore =>
    exact I.tstp hs rfl rfl I.kind rfl (hsaved rfl) (fun _ => hsaved rfl)
      (fun _ => hour (by simp)) (fun h => by simp at h) (fun h => hstatus h _)
  | signal =>
    exact I.tstp hs rfl rfl (hkind _) rfl (huser rfl) (fun _ => hsaved rfl)
      (fun _ => hour (by simp)) (fun _ => by simp [TestTty.tstpHandler]) (fun h => hstatus h _)
  | raise =>
    exact I.tstp hs rfl rfl I.kind rfl (huser rfl) (fun _ => hsaved rfl)
      (fun _ => hour (by simp)) (fun _ => hdfl (by simp)) (fun h => hstatus h _)
  | unblock =>
    exact I.tstp hs rfl rfl I.kind rfl (huser rfl) (fun h => by cases h)
      (fun _ => hour (by simp)) (fun _ => hdfl (by simp)) (fun _ => rfl)
  | reblock =>
    exact I.tstp hs rfl rfl I.kind rfl (huser rfl) (fun h => by cases h)
      (fun _ => hour (by simp)) (fun _ => hdfl (by simp)) (fun h => hstatus h _)
  | sigaction =>
    exact I.tstp hs rfl rfl (hkind _) rfl (huser rfl) (fun h => by cases h)
      (fun _ => hour (by simp)) (fun h => by simp at h) (fun h => hstatus h _)
  | saveUser =>
    exact I.tstp hs rfl rfl I.kind rfl (huser rfl) (fun _ => huser rfl)
      (fun _ => hour (by simp)) (fun h => by simp at h) (fun h => hstatus h _)
  | setOurs =>
    exact I.tstp hs rfl rfl I.kind rfl (hour (by simp)) (fun _ => hsaved rfl)
      (fun _ => hour (by simp)) (fun h => by simp at h) (fun h => hstatus h _)
  | «return» => exact I.tail hs hrun

theorem Inv.handler (I : Inv s) (hrun : s.status = .running) (hn : handler s = some t) :
    Inv t := by
  rw [TestTty.handler] at hn
  split at hn
  · cases hn
  · next sig frames hs =>
    cases hn
    have hnested := I.nested
    rw [hs, List.pairwise_cons] at hnested
    have hne : s.main ≠ .tcgetattr := fun h => by
      have hnil := (I.early (by rw [h]; rfl)).1
      rw [hs] at hnil
      cases hnil
    have hsaved : s.userTermios = s.user := by
      refine I.userTermios hne ?_
      rw [hs, List.forall_mem_cons]
      exact ⟨rfl, fun g hg => (hnested.1 g hg).2 rfl⟩
    have hmode : State.UserMode
        { s with term := s.userTermios, frames := .handler sig true :: frames } :=
      .inr ⟨_, List.mem_cons_self, rfl⟩
    refine {
      user := fun _ => hsaved
      ours := fun h => absurd hmode h
      userTermios := fun _ _ => hsaved
      tcsetattr := I.tcsetattr
      early := fun h => ?_
      exit := fun h => ?_
      ourTermios := fun pc u h => ?_
      dfl := fun pc u h => ?_
      kind := I.kind
      nested := List.pairwise_cons.mpr ⟨fun g hg => ⟨fun h => (by cases h), (hnested.1 g hg).2⟩,
        hnested.2⟩
      stopped := fun h => by cases hrun.symm.trans h
      ended := fun _ => hmode }
    · have hnil := (I.early h).1
      rw [hs] at hnil
      cases hnil
    · have hex := I.exit h
      rw [hs, List.forall_mem_cons] at hex
      exact List.forall_mem_cons.mpr ⟨rfl, hex.2⟩
    · rw [List.mem_cons, or_iff_right (by simp)] at h
      exact I.ourTermios pc u (by simp [hs, h])
    · rw [List.mem_cons, or_iff_right (by simp)] at h
      exact I.dfl pc u (by simp [hs, h])
  · next sig frames hs =>
    cases hn
    have hmode : s.UserMode := .inr ⟨_, by rw [hs]; exact List.mem_cons_self, rfl⟩
    exact { I with
      stopped := fun h => by cases h
      ended := fun _ => hmode }
  · next pc ourTermios frames hs =>
    cases hn
    exact I.tstpHandler hs hrun

/-- Nothing but a frame that the signal lets through lies below a new one. -/
theorem Inv.push (I : Inv s) (hrun : s.status = .running) (hf : f.user = false)
    (hearly : s.main.early = false) (hexit : f.isTstp = true → s.main ≠ .exit)
    (hnew : ∀ pc u, f = .tstpHandler pc u → pc = .tcgetattr)
    (hnested : ∀ g ∈ s.frames, (f.isTstp = true → g.user = false) ∧
      (f.isTstp = false → g.resumed = false)) : Inv { s with frames := f :: s.frames } := by
  have hmode : State.UserMode { s with frames := f :: s.frames } ↔ s.UserMode := by
    rw [State.UserMode, State.UserMode, List.exists_mem_cons_iff, hf]
    simp
  refine {
    user := fun h => I.user (hmode.mp h)
    ours := fun h => I.ours fun h' => h (hmode.mpr h')
    userTermios := fun h hr => I.userTermios h (List.forall_mem_cons.mp hr).2
    tcsetattr := I.tcsetattr
    early := fun h => Bool.noConfusion (h.symm.trans hearly)
    exit := fun h => List.forall_mem_cons.mpr ⟨?_, I.exit h⟩
    ourTermios := fun pc u h hpc => ?_
    dfl := fun pc u h hpc => ?_
    kind := I.kind
    nested := List.pairwise_cons.mpr ⟨hnested, I.nested⟩
    stopped := fun h => by cases hrun.symm.trans h
    ended := fun h => absurd hrun h }
  · exact Bool.eq_false_iff.mpr fun hk => hexit hk h
  · rcases List.mem_cons.mp h with h | h
    · exact absurd (hnew pc u h.symm) hpc
    · exact I.ourTermios pc u h hpc
  · rcases List.mem_cons.mp h with h | h
    · rw [hnew pc u h.symm] at hpc
      simp at hpc
    · exact I.dfl pc u h hpc

theorem Inv.deliver {sig : Sig} (I : Inv s) (hrun : s.status = .running)
    (hok : Timely s (.signal sig)) : Inv (deliver s sig) := by
  have hearly {d : Disposition} (hd : s.disposition sig = d) (hne : d ≠ .dfl) (hne' : d ≠ .ign) :
      s.main.early = false := by
    refine Bool.eq_false_iff.mpr fun h => ?_
    rcases (I.early h).2 sig with h | h
    · exact hne (hd.symm.trans h)
    · exact hne' (hd.symm.trans h)
  rw [Timely, State.Lets.eq_def] at hok
  rw [TestTty.deliver]
  split at hok
  · exact I
  · split at hok
    · next hsig =>
      have hmode : s.UserMode := by
        rcases hok with h | ⟨g, hg, h⟩
        · exact .inl (by rw [h]; rfl)
        · exact .inr ⟨g, hg, Frame.user_of_resumed h⟩
      exact { I with
        stopped := fun _ => hok
        ended := fun _ => hmode }
    · next hsig =>
      exact { I with
        stopped := fun h => by simp [hsig] at h
        ended := fun _ => hok }
  · next hd =>
    exact I.push hrun rfl (hearly hd (by decide) (by decide)) (fun h => by cases h)
      (fun _ _ h => by cases h) fun g hg => ⟨fun h => (by cases h), fun _ => hok g hg⟩
  · next hd =>
    exact I.push hrun rfl (hearly hd (by decide) (by decide)) (fun _ => hok.1)
      (fun _ _ h => by cases h; rfl) fun g hg => ⟨fun _ => hok.2 g hg, fun h => by cases h⟩

theorem inv_of_nil (hs : s.frames = []) (hrun : s.status ≠ .stopped)
    (hterm : s.term = if s.main.user then s.user else s.ours)
    (hsaved : s.main ≠ .tcgetattr → s.userTermios = s.user)
    (htcsetattr : ∀ t, s.main = .tcsetattr t → t = s.user)
    (hearly : s.main.early = true → ∀ sig, s.disposition sig = .dfl ∨ s.disposition sig = .ign)
    (hkind : ∀ sig, s.disposition sig = .tstpHandler → sig = .tstp)
    (hended : s.status ≠ .running → s.main.user = true) : Inv s where
  user h := by
    rw [State.UserMode, hs] at h
    rw [hterm, if_pos (by simpa using h)]
  ours h := by
    rw [State.UserMode, hs] at h
    rw [hterm, if_neg (by simpa using h)]
  userTermios h _ := hsaved h
  tcsetattr := htcsetattr
  early h := ⟨hs, hearly h⟩
  exit _ := by rw [hs]; exact List.forall_mem_nil _
  ourTermios _ _ h := by rw [hs] at h; cases h
  dfl _ _ h := by rw [hs] at h; cases h
  kind := hkind
  nested := by rw [hs]; exact .nil
  stopped h := absurd h hrun
  ended h := .inl (hended h)

/-- A step of `main`, while no handler runs. -/
theorem Inv.main {ch : Option UInt8} (I : Inv s) (hrun : s.status = .running)
    (hs : s.frames = []) : Inv (main cbreak s ch) := by
  have hmode : s.UserMode ↔ s.main.user = true := by simp [State.UserMode, hs]
  have hsaved : s.main ≠ .tcgetattr → s.userTermios = s.user := fun h =>
    I.userTermios h (by rw [hs]; exact List.forall_mem_nil _)
  have hnot : s.status ≠ .stopped := by rw [hrun]; decide
  have hr : s.status ≠ .running → ∀ b : Bool, b = true := fun h => absurd hrun h
  unfold TestTty.main
  split
  · next hm =>
    have huser := I.user (hmode.mpr (by rw [hm]; rfl))
    exact inv_of_nil hs hnot huser (fun _ => huser) (fun t h => by cases h; exact huser)
      (fun _ => (I.early (by rw [hm]; rfl)).2) I.kind fun h => hr h _
  · next t hm =>
    exact inv_of_nil hs hnot rfl (fun _ => hsaved (by rw [hm]; simp)) (fun t h => by cases h)
      (fun h => by cases h) I.kind fun h => hr h _
  · next hm =>
    have hours := I.ours fun h => by
      have := hmode.mp h
      rw [hm] at this
      cases this
    exact inv_of_nil hs hnot hours (fun _ => hsaved (by rw [hm]; simp)) (fun t h => by cases h)
      (fun h => by cases h) I.kind fun h => hr h _
  · next sig sigs hm =>
    have hours := I.ours fun h => by
      have := hmode.mp h
      rw [hm] at this
      cases this
    refine inv_of_nil hs hnot hours (fun _ => hsaved (by rw [hm]; simp)) (fun t h => by cases h)
      (fun h => by cases h) (fun sig' h => ?_) fun h => hr h _
    dsimp only at h
    split at h
    · exact I.kind sig' h
    · rw [update_apply] at h
      split at h
      · next heq =>
        rw [heq]
        cases sig <;> first | rfl | cases h
      · exact I.kind sig' h
  · next hm =>
    have hours := I.ours fun h => by
      have := hmode.mp h
      rw [hm] at this
      cases this
    have hsaved := hsaved (by rw [hm]; simp)
    cases ch with
    | none =>
      exact inv_of_nil hs hnot hours (fun _ => hsaved) (fun t h => by cases h)
        (fun h => by cases h) I.kind fun h => hr h _
    | some ch =>
      by_cases hq : ch = 113
      · simp only [hq, ↓reduceIte]
        exact inv_of_nil hs hnot hours (fun _ => hsaved) (fun t h => by cases h)
          (fun h => by cases h) I.kind fun h => hr h _
      · simp only [hq, ↓reduceIte]
        exact inv_of_nil hs hnot hours (fun _ => hsaved) (fun t h => by cases h)
          (fun h => by cases h) I.kind fun h => hr h _
  · next hm =>
    have hsaved := hsaved (by rw [hm]; simp)
    exact inv_of_nil hs hnot hsaved (fun _ => hsaved) (fun t h => by cases h)
      (fun h => by cases h) I.kind fun h => hr h _
  · next hm =>
    have huser := I.user (hmode.mpr (by rw [hm]; rfl))
    refine inv_of_nil hs (fun h => by cases h) ?_ (fun _ => hsaved (by rw [hm]; simp))
      (fun t h => by cases hm.symm.trans h) (fun h => by rw [hm] at h; cases h) I.kind ?_
    · rw [hm]
      exact huser
    · intro _
      rw [hm]
      rfl

theorem Inv.step {a : Label} (I : Inv s) (hok : Timely s a)
    (hn : step cbreak s a = some t) : Inv t := by
  unfold TestTty.step at hn
  split at hn
  · next ch hrun =>
    split at hn
    · next hs =>
      cases hn
      exact I.main hrun hs
    · cases hn
  · next hrun => exact I.handler hrun hn
  · next sig hrun =>
    simp only [Option.ite_none_left_eq_some, Option.some.injEq] at hn
    obtain ⟨-, rfl⟩ := hn
    exact I.deliver hrun hok
  · next u hstopped =>
    cases hn
    have hresumed := I.stopped hstopped
    have hmode : s.UserMode := I.ended (by rw [hstopped]; decide)
    exact { I with
      user := fun _ => rfl
      ours := fun h => absurd hmode h
      userTermios := fun hne hall => by
        obtain ⟨f, hf, hr⟩ := hresumed.resolve_left hne
        exact Bool.noConfusion ((hall f hf).symm.trans hr)
      tcsetattr := fun u' h => by
        obtain ⟨f, hf, hr⟩ := hresumed.resolve_left fun h' => by cases h.symm.trans h'
        rw [(I.early (by rw [h]; rfl)).1] at hf
        cases hf }
  · cases hn
    exact { I with
      stopped := fun h => by cases h
      ended := fun h => absurd rfl h }
  · cases hn

/-! ### The runs -/

/-- If no signal comes at a wrong moment, the terminal has the user's own settings, as they are by
then, whenever the program is stopped or has terminated, and the program's whenever it reads. -/
theorem terminal_restored (cbreak : Bool) (term : Termios) (ignored : Sig → Bool)
    (h : (machine cbreak).ReachableBy Timely (.init term ignored) s) :
    (s.status ≠ .running → s.term = s.user) ∧
      (s.main = .read → s.frames = [] → s.term = s.ours) := by
  have I := h.invariant (inv_init term ignored) fun _ _ _ I hok hn => I.step hok hn
  refine ⟨fun hs => I.user (I.ended hs), fun hm hs => I.ours ?_⟩
  rintro (hu | ⟨f, hf, -⟩)
  · rw [hm] at hu
    cases hu
  · rw [hs] at hf
    cases hf

/-- The settings that the examples use. -/
def sane : Termios := ⟨0x500, 0x5, 0xbf, 0x8a3b, .replicate NCCS 0⟩

/-- In cbreak mode, until `tstpHandler` has stopped the program. -/
def toStop : List Label :=
  List.replicate 7 (.main none) ++ [.signal .tstp] ++ List.replicate 5 .handler

theorem terminal_restored_stop :
    ∃ s : State, s.status = .stopped ∧ s.user = sane.raw ∧ s.term = s.user := by
  have h : (machine true).ReachableBy Timely _ (.init sane fun _ => false) := .refl
  obtain ⟨s, hs, hstop, huser⟩ := h.exists_of_runBy
    (P := fun s => s.status = .stopped ∧ s.user = sane.raw) (toStop ++ [.user sane.raw])
    ⟨_, rfl, rfl, rfl⟩
  exact ⟨s, hstop, huser, (terminal_restored true sane _ hs).1 (by rw [hstop]; decide)⟩

/-- A `SIGTERM` right after the program was continued: what the user has changed is lost. -/
example : ((machine true).run (.init sane fun _ => false)
    (toStop ++ [.user sane.raw, .cont, .signal .term, .handler, .handler])).map
      (fun s => (s.status, s.term, s.user)) = some (.terminated, sane, sane.raw) := rfl

end

end Tlpi.TestTty
