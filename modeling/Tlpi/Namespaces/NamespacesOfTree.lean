import Mathlib.Order.WellFoundedSet
import Tlpi.Lib.Fuel
import Tlpi.Namespaces.NamespacesOfLemmas

/-!
# Displaying the tree

The walk of `displayNamespaceTree` goes down the children lists. There are finitely many entries
and no entry is below itself, so every walk ends.
-/

namespace Tlpi.NamespacesOf

open Relation Fuel

section
variable {H : Hierarchy} {opts : CmdLineOptions} {root : NamespaceID} {nsi : NamespaceInfo}

/-- `c` is in the children list of `q`. -/
def NamespaceInfo.Child (nsi : NamespaceInfo) (c q : NamespaceID) : Prop :=
  ∃ a, nsi.nsList q = some a ∧ c ∈ a.children

theorem Inv.child_iff (I : Inv H opts root nsi) {c q : NamespaceID} :
    nsi.Child c q ↔ nsi.Has q ∧ nsi.Has c ∧ H.Link opts c q := by
  constructor
  · rintro ⟨a, ha, hc⟩
    exact ⟨by simp [NamespaceInfo.Has, ha], ((I.children q a ha).2 c).mp hc⟩
  · rintro ⟨hq, hc⟩
    obtain ⟨a, ha⟩ := Option.isSome_iff_exists.mp hq
    exact ⟨a, ha, ((I.children q a ha).2 c).mpr hc⟩

theorem Hierarchy.WellFormed.wf_link (W : H.WellFormed opts root) :
    WellFounded fun q c => H.Link opts c q := by
  have hinvis : Acc (fun q c => H.Link opts c q) invisUserNS :=
    ⟨_, fun q hl => absurd hl.1 W.invis⟩
  refine ⟨fun ns => ?_⟩
  induction ns using (H.wf_ioctl opts).induction with
  | _ ns ih =>
    refine ⟨_, fun q hl => ?_⟩
    obtain ⟨-, h | ⟨-, rfl⟩⟩ := hl
    · exact ih q h
    · exact hinvis

/-- Going down the children lists ends. -/
theorem Inv.wf_child (I : Inv H opts root nsi) (W : H.WellFormed opts root)
    (hfin : { m | nsi.Has m }.Finite) : WellFounded nsi.Child := by
  have hirrefl : ∀ m, ¬ TransGen nsi.Child m m := by
    intro m h
    have hlink : TransGen (fun c q => H.Link opts c q) m m :=
      TransGen.mono (fun c q hc => (I.child_iff.mp hc).2.2) m m h
    exact W.wf_link.transGen.irrefl.irrefl m (transGen_swap.mp hlink)
  have : IsStrictOrder NamespaceID (TransGen nsi.Child) :=
    { irrefl := hirrefl, trans := fun _ _ _ => TransGen.trans }
  have hwf := Set.wellFoundedOn_iff.mp (hfin.wellFoundedOn (r := TransGen nsi.Child))
  refine Subrelation.wf (fun {c q} hc => ?_) hwf
  obtain ⟨hq, hc', -⟩ := I.child_iff.mp hc
  exact ⟨.single hc, hc', hq⟩

/-- The walk from an entry ends. -/
theorem Inv.displayNamespaceTree_eq_some (I : Inv H opts root nsi) (W : H.WellFormed opts root)
    (hfin : { m | nsi.Has m }.Finite) {q : NamespaceID} (hq : nsi.Has q) :
    ∃ n, ∀ fuel, n ≤ fuel → ∀ level, ∃ lines,
      displayNamespaceTree opts nsi fuel q level = some lines := by
  induction q using (I.wf_child W hfin).induction with
  | _ q ih =>
    obtain ⟨a, ha⟩ := Option.isSome_iff_exists.mp hq
    have hchild : ∀ c ∈ a.children, ∃ n, ∀ fuel, n ≤ fuel → ∀ level, ∃ lines,
        displayNamespaceTree opts nsi fuel c level = some lines := by
      intro c hc
      exact ih c ⟨a, ha, hc⟩ (((I.children q a ha).2 c).mp hc).1
    obtain ⟨n, hn⟩ := exists_common_bound hchild
    refine ⟨n + 1, fun fuel hfuel level => ?_⟩
    obtain ⟨fuel, rfl⟩ : ∃ k, fuel = k + 1 := ⟨fuel - 1, by omega⟩
    obtain ⟨ls, hls⟩ := mapM_eq_some fun c hc => hn c hc fuel (by omega) (level + 1)
    exact ⟨_, by rw [displayNamespaceTree, ha, Option.bind_some, hls, Option.map_some]⟩

/-! ### What a sequence of calls builds -/

/-- The list is the tree of the namespaces of the calls, with `root` the topmost one. -/
structure Describes (H : Hierarchy) (opts : CmdLineOptions) (root : NamespaceID)
    (calls : List (NamespaceID × Int)) (nsi : NamespaceInfo) : Prop where
  keys : ∀ m, (nsi.nsList m).isSome ↔ (∃ c ∈ calls, H.Above opts c.1 m) ∨
    m = invisUserNS ∧ ∃ c ∈ calls, H.OwnerInvisible opts c.1
  rootNS : ∀ c ∈ calls, H.Above opts c.1 root → nsi.rootNS = root
  children : ∀ m, (nsi.nsList m).isSome → m ≠ nsi.rootNS → m ≠ invisUserNS →
    ∃ q a, H.Link opts m q ∧ nsi.nsList q = some a ∧ a.children.count m = 1 ∧
      ∀ q' a', nsi.nsList q' = some a' → q' ≠ q → m ∉ a'.children
  pids : ∀ m a, nsi.nsList m = some a → a.pids = (calls.filter (·.1 = m)).map (·.2)
  walks : (nsi.nsList root).isSome → (∃ n, ∀ fuel, n ≤ fuel → ∃ lines,
      displayNamespaceTree opts nsi fuel nsi.rootNS 0 = some lines) ∧
    ((nsi.nsList invisUserNS).isSome → ∃ n, ∀ fuel, n ≤ fuel → ∃ lines,
      displayNamespaceTree opts nsi fuel invisUserNS 0 = some lines)

theorem Tracks.finite {calls : List (NamespaceID × Int)} (T : Tracks H opts calls nsi) :
    { m | nsi.Has m }.Finite := by
  have habove : (⋃ c ∈ calls, { m | H.Above opts c.1 m }).Finite :=
    calls.finite_toSet.biUnion fun c _ => H.above_finite opts c.1
  refine (habove.insert invisUserNS).subset fun m hm => ?_
  rcases (T.has_iff m).mp hm with ⟨c, hc, hab⟩ | ⟨rfl, -⟩
  · exact .inr (Set.mem_biUnion hc hab)
  · exact .inl rfl

theorem Inv.exists_children (I : Inv H opts root nsi) (W : H.WellFormed opts root)
    {m : NamespaceID} (hm : nsi.Has m) (hroot : m ≠ nsi.rootNS) (hinvis : m ≠ invisUserNS) :
    ∃ q a, H.Link opts m q ∧ nsi.nsList q = some a ∧ a.children.count m = 1 ∧
      ∀ q' a', nsi.nsList q' = some a' → q' ≠ q → m ∉ a'.children := by
  have hs := I.scope m hm hinvis
  obtain ⟨q, hl⟩ : ∃ q, H.Link opts m q := by
    rcases W.cases hs with ⟨p, hp⟩ | rfl | hinv
    · exact ⟨p, hs, .inl hp⟩
    · exact absurd (I.root hm).symm hroot
    · exact ⟨invisUserNS, hs, .inr ⟨hinv, rfl⟩⟩
  obtain ⟨a, ha⟩ := Option.isSome_iff_exists.mp (I.closed m q hm hl)
  obtain ⟨hnd, hmem⟩ := I.children q a ha
  refine ⟨q, a, hl, ha, List.count_eq_one_of_mem hnd ((hmem m).mpr ⟨hm, hl⟩), ?_⟩
  intro q' a' ha' hne hm'
  exact hne ((((I.children q' a' ha').2 m).mp hm').2.unique hl)

/-- Every sequence of `addNamespace` calls on namespaces of a well-formed hierarchy succeeds and
builds the tree of these namespaces. -/
theorem addNamespaces_describes (W : H.WellFormed opts root) (calls : List (NamespaceID × Int))
    (hcalls : ∀ c ∈ calls, H.InScope opts c.1 ∧ 0 < c.2) :
    ∃ nsi, addNamespaces H opts .empty calls = .ok nsi ∧ Describes H opts root calls nsi := by
  obtain ⟨nsi, hn, I, T⟩ := addNamespaces_spec W (inv_empty H opts root) (tracks_empty H opts) hcalls
  rw [List.nil_append] at T
  refine ⟨nsi, hn, T.has_iff, ?_, ?_, ?_, ?_⟩
  · intro c hc hab
    exact I.root ((T.has_iff root).mpr (.inl ⟨c, hc, hab⟩))
  · exact fun m hm hroot hinvis => I.exists_children W hm hroot hinvis
  · intro m a ha
    rw [← T.pidsOf, NamespaceInfo.pidsOf_of_eq_some ha]
  · intro hr
    have hwalk : ∀ q, nsi.Has q → ∃ n, ∀ fuel, n ≤ fuel → ∃ lines,
        displayNamespaceTree opts nsi fuel q 0 = some lines := by
      intro q hq
      obtain ⟨n, h⟩ := I.displayNamespaceTree_eq_some W T.finite hq
      exact ⟨n, fun fuel hfuel => h fuel hfuel 0⟩
    rw [I.root hr]
    exact ⟨hwalk root hr, hwalk invisUserNS⟩

end

/-- The user namespace 1, a child 2 of it, a network namespace 3 owned by 2, and a network namespace
4 with an owner that is not visible. -/
def smallHierarchy : Hierarchy where
  nsGetNstype ns := if ns = ⟨4, 1⟩ ∨ ns = ⟨4, 2⟩ then .ok .user
    else if ns = ⟨4, 3⟩ ∨ ns = ⟨4, 4⟩ then .ok .net else .error 9
  nsGetOwnerUid _ := .ok 0
  nsGetUserns ns := if ns = ⟨4, 2⟩ then .ok ⟨4, 1⟩ else if ns = ⟨4, 3⟩ then .ok ⟨4, 2⟩
    else .error EPERM
  nsGetParent _ := .error EPERM
  wf_userns := by
    refine Subrelation.wf (fun {p ns} h => ?_) (measure fun ns : NamespaceID => ns.inode.toNat).wf
    split at h
    · rename_i h2
      cases h
      subst h2
      exact (by decide : (1 : UInt64).toNat < (2 : UInt64).toNat)
    · split at h
      · rename_i h3
        cases h
        subst h3
        exact (by decide : (2 : UInt64).toNat < (3 : UInt64).toNat)
      · cases h
  wf_parent := Hierarchy.wf_error EPERM

theorem smallHierarchy_wellFormed : smallHierarchy.WellFormed ⟨false, 0⟩ ⟨4, 1⟩ := by
  have hscope : ∀ ns, smallHierarchy.InScope ⟨false, 0⟩ ns →
      ns = ⟨4, 1⟩ ∨ ns = ⟨4, 2⟩ ∨ ns = ⟨4, 3⟩ ∨ ns = ⟨4, 4⟩ := by
    rintro ns ⟨t, ht, -⟩
    by_contra hne
    simp only [not_or] at hne
    simp [smallHierarchy, hne.1, hne.2.1, hne.2.2.1, hne.2.2.2] at ht
  refine ⟨⟨.user, rfl, by simp⟩, .inl rfl, ?_, ?_, ?_, ?_, ?_⟩
  · intro ns p hs hp
    rcases hscope ns hs with rfl | rfl | rfl | rfl <;> cases hp
    · exact ⟨⟨.user, rfl, by simp⟩, .inl rfl⟩
    · exact ⟨⟨.user, rfl, by simp⟩, .inl rfl⟩
  · intro ns e hs he
    rcases hscope ns hs with rfl | rfl | rfl | rfl <;> cases he <;> rfl
  · exact fun ns _ => ⟨0, rfl⟩
  · intro ns hs ht
    rcases hscope ns hs with rfl | rfl | rfl | rfl
    · exact ⟨fun _ => rfl, fun _ => rfl⟩
    · refine ⟨fun h => ?_, fun h => ?_⟩ <;> cases h
    · refine ⟨fun h => ?_, fun h => ?_⟩ <;> cases h
    · rcases ht with h | h <;> cases h
  · intro hs
    rcases hscope _ hs with h | h | h | h <;> cases h

/-- Processes 10 and 11 in the network namespaces 3 and 4, and 12 in the user namespace 2. -/
theorem addNamespaces_describes_small : ∃ nsi,
    addNamespaces smallHierarchy ⟨false, 0⟩ .empty [(⟨4, 3⟩, 10), (⟨4, 4⟩, 11), (⟨4, 2⟩, 12)] =
      .ok nsi ∧
    Describes smallHierarchy ⟨false, 0⟩ ⟨4, 1⟩ [(⟨4, 3⟩, 10), (⟨4, 4⟩, 11), (⟨4, 2⟩, 12)] nsi := by
  refine addNamespaces_describes smallHierarchy_wellFormed _ fun c hc => ?_
  simp only [List.mem_cons, List.not_mem_nil, or_false] at hc
  rcases hc with rfl | rfl | rfl
  · exact ⟨⟨.net, rfl, by simp⟩, by decide⟩
  · exact ⟨⟨.net, rfl, by simp⟩, by decide⟩
  · exact ⟨⟨.user, rfl, by simp⟩, by decide⟩

end Tlpi.NamespacesOf
