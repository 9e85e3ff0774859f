import Tlpi.Lib.Keyed
import Tlpi.Lib.Strtol

/-!
# `getopt()`

The options at the start of a command line, as GNU `getopt()` returns them one after the other when
`optstring` begins with `+`: the first argument that is not an option ends them.
-/

namespace Tlpi.Getopt

open Tlpi.Num (CString)

/-- What `getopt()` returns: an option with its argument, if it takes one, or `?`. -/
inductive Opt where
  | opt (c : Char) (optarg : Option CString)
  | bad
  deriving DecidableEq, Repr

/-- Which letters are options, and whether each takes an argument. -/
abbrev Table := List (Char × Bool)

/-- The letters of `optstring`, without its `+`. -/
def tableOf : List Char → Table
  | c :: ':' :: cs => (c, true) :: tableOf cs
  | c :: cs => (c, false) :: tableOf cs
  | [] => []

def takes (t : Table) (c : Char) : Option Bool := (t.find? (·.1 = c)).map (·.2)

section
variable (takes : Char → Option Bool)

/-- The options in one argument, behind its `-`. If the last of them takes the next argument, this
is its letter. -/
def letters : List Char → List Opt × Option Char
  | [] => ([], none)
  | c :: cs =>
    match takes c with
    | none => (.bad :: (letters cs).1, (letters cs).2)
    | some false => (.opt c none :: (letters cs).1, (letters cs).2)
    | some true => if cs = [] then ([], some c) else ([.opt c (some cs)], none)

/-- What the calls return up to the -1, and the arguments from `optind` on then. -/
def scan : List CString → List Opt × List CString
  | [] => ([], [])
  | arg :: args =>
    match arg with
    | ['-', '-'] => ([], args)
    | '-' :: c :: cs =>
      match letters takes (c :: cs), args with
      | (opts, none), args => (opts ++ (scan args).1, (scan args).2)
      | (opts, some _), [] => (opts ++ [.bad], [])
      | (opts, some c), optarg :: args =>
        (opts ++ .opt c (some optarg) :: (scan args).1, (scan args).2)
    | _ => ([], arg :: args)

end

theorem mem_of_takes {t : Table} {c : Char} {b : Bool} (h : takes t c = some b) : (c, b) ∈ t := by
  obtain ⟨e, he, rfl⟩ := Option.map_eq_some_iff.mp h
  obtain rfl : e.1 = c := by simpa using List.find?_some he
  exact List.mem_of_find?_eq_some he

/-- The order of the letters does not matter. -/
theorem takes_eq_of_perm {t t' : Table} (h : UniqueKeys Prod.fst t) (hp : t'.Perm t) :
    takes t' = takes t := by
  funext c
  rw [takes, takes, h.find?_eq_of_perm hp]

/-- An option has an argument if its letter takes one. -/
def Opt.Agrees (takes : Char → Option Bool) : Opt → Prop
  | .opt c optarg => takes c = some optarg.isSome
  | .bad => True

theorem letters_agree (takes : Char → Option Bool) (cs : List Char) :
    (∀ o ∈ (letters takes cs).1, o.Agrees takes) ∧
      ∀ c, (letters takes cs).2 = some c → takes c = some true := by
  induction cs with
  | nil => exact ⟨nofun, nofun⟩
  | cons c cs ih =>
    rw [letters]
    cases hc : takes c with
    | none => exact ⟨List.forall_mem_cons.mpr ⟨trivial, ih.1⟩, ih.2⟩
    | some b =>
      cases b with
      | false => exact ⟨List.forall_mem_cons.mpr ⟨hc, ih.1⟩, ih.2⟩
      | true =>
        dsimp only
        split
        · refine ⟨nofun, fun d hd => ?_⟩
          cases hd
          exact hc
        · exact ⟨List.forall_mem_singleton.mpr hc, nofun⟩

theorem scan_agrees (takes : Char → Option Bool) (args : List CString) :
    ∀ o ∈ (scan takes args).1, o.Agrees takes := by
  induction args using scan.induct takes with
  | case1 => exact nofun
  | case2 args => exact nofun
  | case3 c cs hne opts args hletters ih =>
    have hopts := (letters_agree takes (c :: cs)).1
    rw [hletters] at hopts
    rw [scan.eq_3 _ _ _ _ _ hne hletters]
    exact List.forall_mem_append.mpr ⟨hopts, ih⟩
  | case4 c cs hne opts d hletters =>
    have hopts := (letters_agree takes (c :: cs)).1
    rw [hletters] at hopts
    rw [scan.eq_4 _ _ _ _ hne _ hletters]
    exact List.forall_mem_append.mpr ⟨hopts, List.forall_mem_singleton.mpr trivial⟩
  | case5 c cs hne opts d optarg args hletters ih =>
    obtain ⟨hopts, hlast⟩ := letters_agree takes (c :: cs)
    rw [hletters] at hopts hlast
    rw [scan.eq_5 _ _ _ _ _ _ _ hne hletters]
    exact List.forall_mem_append.mpr ⟨hopts, List.forall_mem_cons.mpr ⟨hlast d rfl, ih⟩⟩
  | case6 arg args hend hopt =>
    rw [scan.eq_6 _ _ _ hend hopt]
    exact nofun

end Tlpi.Getopt
