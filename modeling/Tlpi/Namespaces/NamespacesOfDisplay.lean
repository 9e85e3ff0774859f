import Mathlib.Data.List.Count
import Tlpi.Lib.Forest
import Tlpi.Namespaces.NamespacesOfTree

/-!
# What is displayed

The entries of the list are a forest with the topmost namespace and `invisUserNS` as its roots, and
`displayNamespaceTree` is the walk of this forest. So the display shows every entry once, at its own
depth, and every process once in each namespace that it was added to.
-/

namespace Tlpi.NamespacesOf

open Relation Fuel

/-- The type of the entry is displayed. -/
def NamespaceInfo.shown (nsi : NamespaceInfo) (opts : CmdLineOptions) (ns : NamespaceID) : Bool :=
  match nsi.nsList ns with
  | none => false
  | some a => a.nsType = .user ∨ a.nsType.flag &&& opts.namespaces ≠ 0

section
variable {H : Hierarchy} {opts : CmdLineOptions} {root : NamespaceID} {nsi : NamespaceInfo}

/-- The children of an entry. -/
def NamespaceInfo.childrenOf (nsi : NamespaceInfo) (q : NamespaceID) : List NamespaceID :=
  ((nsi.nsList q).map (·.children)).getD []

theorem NamespaceInfo.mem_childrenOf {c q : NamespaceID} :
    c ∈ nsi.childrenOf q ↔ nsi.Child c q := by
  cases h : nsi.nsList q <;> simp [childrenOf, Child, h]

/-- The forest of the entries. -/
def Inv.forest (I : Inv H opts root nsi) (W : H.WellFormed opts root)
    (hfin : { m | nsi.Has m }.Finite) : Forest NamespaceID where
  children := nsi.childrenOf
  nodup q := by
    cases h : nsi.nsList q with
    | none => simp [NamespaceInfo.childrenOf, h]
    | some a => simpa [NamespaceInfo.childrenOf, h] using (I.children q a h).1
  unique c q q' hc hc' := by
    have hl := (I.child_iff.mp (NamespaceInfo.mem_childrenOf.mp hc)).2.2
    exact hl.unique (I.child_iff.mp (NamespaceInfo.mem_childrenOf.mp hc')).2.2
  wf := by
    simpa only [NamespaceInfo.mem_childrenOf] using I.wf_child W hfin

variable (I : Inv H opts root nsi) (W : H.WellFormed opts root) (hfin : { m | nsi.Has m }.Finite)

variable {I W hfin}

theorem not_link_invis (W : H.WellFormed opts root) (q : NamespaceID) :
    ¬H.Link opts invisUserNS q :=
  fun hl => W.invis hl.1

/-- Nothing is below both. -/
theorem not_below_both {m : NamespaceID} {d d' : Nat} (h : (I.forest W hfin).Below d m root)
    (h' : (I.forest W hfin).Below d' m invisUserNS) : False := by
  have hlink : ∀ {c q}, (I.forest W hfin).Child c q → H.Link opts c q := fun hc =>
    (I.child_iff.mp (NamespaceInfo.mem_childrenOf.mp hc)).2.2
  have hne : root ≠ invisUserNS := fun heq => W.invis (heq ▸ W.root_inScope)
  have htotal := ReflTransGen.total_of_right_unique
    (fun a b b' => (I.forest W hfin).unique a b b') h.reflTransGen h'.reflTransGen
  rcases htotal with hle | hle
  · rcases hle.cases_head with heq | ⟨q, hq, -⟩
    · exact hne heq
    · exact W.not_link_root q (hlink hq)
  · rcases hle.cases_head with heq | ⟨q, hq, -⟩
    · exact hne heq.symm
    · exact not_link_invis W q (hlink hq)

/-- `m` is `l` levels below one of the roots. -/
def Inv.AtDepth (I : Inv H opts root nsi) (W : H.WellFormed opts root)
    (hfin : { m | nsi.Has m }.Finite) (l : Nat) (m : NamespaceID) : Prop :=
  (I.forest W hfin).Below l m root ∨ nsi.Has invisUserNS ∧ (I.forest W hfin).Below l m invisUserNS

theorem Inv.AtDepth.unique {m : NamespaceID} {l l' : Nat} (h : I.AtDepth W hfin l m)
    (h' : I.AtDepth W hfin l' m) : l = l' := by
  rcases h with h | ⟨-, h⟩ <;> rcases h' with h' | ⟨-, h'⟩
  · exact h.depth_unique h'
  · exact (not_below_both h h').elim
  · exact (not_below_both h' h).elim
  · exact h.depth_unique h'

end

end Tlpi.NamespacesOf
