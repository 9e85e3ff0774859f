import Mathlib.Data.Set.Finite.Basic
import Mathlib.Data.Set.Finite.Lattice
import Mathlib.Order.WellFounded
import Mathlib.Data.List.Basic
import Tlpi.Namespaces.NamespacesOf

/-!
# The namespace list is the tree of the namespaces added

An entry is created before the entries of its ancestors, so a state in the middle of the recursion
is not closed under ancestors. As the recursion never looks at the entry it started from, the entry
may as well be created last (`addNamespace_set`), and every call goes from one closed list to
another (`Inv`).
-/

namespace Tlpi.NamespacesOf

open Relation

namespace Hierarchy

variable (H : Hierarchy) (opts : CmdLineOptions)

/-- The namespaces that the program meets: all of them, or the PID namespaces under `--pidns`. -/
def InScope (ns : NamespaceID) : Prop :=
  ∃ t, H.nsGetNstype ns = .ok t ∧ (opts.showPidnsHierarchy = true → t = .pid)

/-- The namespace belongs to the hierarchy that is displayed. -/
def InTree (ns : NamespaceID) : Prop :=
  H.nsGetNstype ns = .ok .user ∨ opts.showPidnsHierarchy = true

/-- What the kernel promises, with `root` the topmost visible namespace. -/
structure WellFormed (root : NamespaceID) : Prop where
  root_inScope : H.InScope opts root
  root_inTree : H.InTree opts root
  parent : ∀ ns p, H.InScope opts ns → H.ioctl opts ns = .ok p →
    H.InScope opts p ∧ H.InTree opts p
  error : ∀ ns e, H.InScope opts ns → H.ioctl opts ns = .error e → e = EPERM
  ownerUid : ∀ ns, H.nsGetNstype ns = .ok .user → ∃ uid, H.nsGetOwnerUid ns = .ok uid
  topmost : ∀ ns, H.InScope opts ns → H.InTree opts ns →
    (H.ioctl opts ns = .error EPERM ↔ ns = root)
  invis : ¬ H.InScope opts invisUserNS

/-- A nonuser namespace whose owner is not visible. -/
def OwnerInvisible (ns : NamespaceID) : Prop :=
  H.ioctl opts ns = .error EPERM ∧ ¬ H.InTree opts ns

/-- `m` is `ns` or one of its ancestors. -/
def Above (ns m : NamespaceID) : Prop := ReflTransGen (fun c p => H.ioctl opts c = .ok p) ns m

/-- The entry of `ns` belongs in the children list of `q`. -/
def Link (ns q : NamespaceID) : Prop :=
  H.InScope opts ns ∧ (H.ioctl opts ns = .ok q ∨ H.OwnerInvisible opts ns ∧ q = invisUserNS)

variable {H opts}

theorem Link.unique {ns q q' : NamespaceID} (h : H.Link opts ns q) (h' : H.Link opts ns q') :
    q = q' := by
  obtain ⟨-, h | ⟨h, rfl⟩⟩ := h <;> obtain ⟨-, h' | ⟨h', rfl⟩⟩ := h'
  · exact Except.ok.inj (h.symm.trans h')
  · cases h.symm.trans h'.1
  · cases h'.symm.trans h.1
  · rfl

theorem above_iff {ns m : NamespaceID} :
    H.Above opts ns m ↔ m = ns ∨ ∃ p, H.ioctl opts ns = .ok p ∧ H.Above opts p m := by
  rw [Above, ReflTransGen.cases_head_iff]
  exact or_congr_left eq_comm

theorem Above.inScope {root ns m : NamespaceID} (W : H.WellFormed opts root)
    (hs : H.InScope opts ns) (h : H.Above opts ns m) : H.InScope opts m := by
  induction h with
  | refl => exact hs
  | tail _ hp ih => exact (W.parent _ _ ih hp).1

theorem not_above_of_parent {ns p : NamespaceID} (h : H.ioctl opts ns = .ok p) :
    ¬ H.Above opts p ns := by
  intro hab
  have hcycle : TransGen (fun c p => H.ioctl opts c = .ok p) ns ns := .head' h hab
  have hwf : WellFounded (TransGen fun p ns => H.ioctl opts ns = .ok p) :=
    (H.wf_ioctl opts).transGen
  exact hwf.irrefl.irrefl ns (transGen_swap.mp hcycle)

theorem above_finite (H : Hierarchy) (opts : CmdLineOptions) (ns : NamespaceID) :
    { m | H.Above opts ns m }.Finite := by
  induction ns using (H.wf_ioctl opts).induction with
  | _ ns ih =>
    cases hp : H.ioctl opts ns with
    | error e =>
      refine (Set.finite_singleton ns).subset fun m hm => ?_
      rcases above_iff.mp hm with rfl | ⟨p, hp', -⟩
      · rfl
      · cases hp.symm.trans hp'
    | ok p =>
      refine ((ih p hp).insert ns).subset fun m hm => ?_
      rcases above_iff.mp hm with rfl | ⟨p', hp', hab⟩
      · exact .inl rfl
      · obtain rfl := Except.ok.inj (hp.symm.trans hp')
        exact .inr hab

/-- The `ioctl` on a namespace either gives its parent or owner, or tells that it is the topmost
one, or that its owner is not visible. -/
theorem WellFormed.cases {root ns : NamespaceID} (W : H.WellFormed opts root)
    (hs : H.InScope opts ns) :
    (∃ p, H.ioctl opts ns = .ok p) ∨ ns = root ∨ H.OwnerInvisible opts ns := by
  cases hp : H.ioctl opts ns with
  | ok p => exact .inl ⟨p, rfl⟩
  | error e =>
    obtain rfl := W.error ns e hs hp
    by_cases ht : H.InTree opts ns
    · exact .inr (.inl ((W.topmost ns hs ht).mp hp))
    · exact .inr (.inr ⟨hp, ht⟩)

theorem WellFormed.root_ioctl {root : NamespaceID} (W : H.WellFormed opts root) :
    H.ioctl opts root = .error EPERM :=
  (W.topmost root W.root_inScope W.root_inTree).mpr rfl

/-- The new entry of a namespace. -/
def attribs (H : Hierarchy) (ns : NamespaceID) : NamespaceAttribs :=
  match H.nsGetNstype ns with
  | .error _ => ⟨.mnt, [], [], 0⟩
  | .ok nsType =>
    match if nsType = .user then H.nsGetOwnerUid ns else .ok 0 with
    | .error _ => ⟨nsType, [], [], 0⟩
    | .ok uid => ⟨nsType, [], [], uid⟩

@[simp] theorem attribs_pids (H : Hierarchy) (ns : NamespaceID) : (H.attribs ns).pids = [] := by
  unfold attribs
  split
  · rfl
  · split <;> rfl

@[simp] theorem attribs_children (H : Hierarchy) (ns : NamespaceID) :
    (H.attribs ns).children = [] := by
  unfold attribs
  split
  · rfl
  · split <;> rfl

end Hierarchy

/-! ### Equations for the recursion -/

section
variable {H : Hierarchy} {opts : CmdLineOptions} {root ns : NamespaceID}

theorem addNamespace_neg (nsi : NamespaceInfo) (ns : NamespaceID) :
    addNamespace H opts nsi ns (-1) =
      if (nsi.nsList ns).isSome then .ok nsi else addNamespaceToList H opts nsi ns := by
  rw [addNamespace]
  split
  · rename_i e he
    exact he.symm
  · rename_i nsi' he
    rw [if_neg (by decide)]
    exact he.symm

/-- What `addNamespaceToList` does once the type of the namespace is known. -/
theorem addNamespaceToList_eq (W : H.WellFormed opts root) (hs : H.InScope opts ns)
    (nsi : NamespaceInfo) :
    addNamespaceToList H opts nsi ns =
      match H.ioctl opts ns with
      | .error e =>
        if e ≠ EPERM then .error .exit
        else if (H.attribs ns).nsType = .user ∨ opts.showPidnsHierarchy then
          .ok { nsi.set ns (H.attribs ns) with rootNS := ns }
        else (nsi.set ns (H.attribs ns)).ensureInvis.addChild invisUserNS ns
      | .ok parent =>
        (addNamespace H opts (nsi.set ns (H.attribs ns)) parent (-1)).bind (·.addChild parent ns) := by
  obtain ⟨t, ht, -⟩ := hs
  obtain ⟨uid, huid⟩ : ∃ uid, (if t = .user then H.nsGetOwnerUid ns else .ok 0) = .ok uid := by
    split
    · rename_i hu
      exact W.ownerUid ns (hu ▸ ht)
    · exact ⟨0, rfl⟩
  have ha : H.attribs ns = ⟨t, [], [], uid⟩ := by simp only [Hierarchy.attribs, ht, huid]
  rw [addNamespaceToList, ha]
  simp only [ht, huid]
  split
  · rename_i e he
    rw [he]
  · rename_i p hp
    rw [hp]
    simp only
    cases addNamespace H opts (nsi.set ns ⟨t, [], [], uid⟩) p (-1) <;> rfl

theorem attribs_nsType_iff (hs : H.InScope opts ns) :
    (H.attribs ns).nsType = .user ∨ opts.showPidnsHierarchy ↔ H.InTree opts ns := by
  obtain ⟨t, ht, -⟩ := hs
  have : (H.attribs ns).nsType = t := by
    simp only [Hierarchy.attribs, ht]
    split <;> rfl
  simp [this, Hierarchy.InTree, ht]

theorem addNamespaceToList_root (W : H.WellFormed opts root) (nsi : NamespaceInfo) :
    addNamespaceToList H opts nsi root =
      .ok { nsi.set root (H.attribs root) with rootNS := root } := by
  rw [addNamespaceToList_eq W W.root_inScope, W.root_ioctl]
  simp only [ne_eq, not_true_eq_false, if_false]
  rw [if_pos ((attribs_nsType_iff W.root_inScope).mpr W.root_inTree)]

theorem addNamespaceToList_invis (W : H.WellFormed opts root) (hs : H.InScope opts ns)
    (h : H.OwnerInvisible opts ns) (nsi : NamespaceInfo) :
    addNamespaceToList H opts nsi ns =
      (nsi.set ns (H.attribs ns)).ensureInvis.addChild invisUserNS ns := by
  rw [addNamespaceToList_eq W hs, h.1]
  simp only [ne_eq, not_true_eq_false, if_false]
  rw [if_neg (mt (attribs_nsType_iff hs).mp h.2)]

theorem addNamespaceToList_parent {p : NamespaceID} (W : H.WellFormed opts root)
    (hs : H.InScope opts ns) (h : H.ioctl opts ns = .ok p) (nsi : NamespaceInfo) :
    addNamespaceToList H opts nsi ns =
      (addNamespace H opts (nsi.set ns (H.attribs ns)) p (-1)).bind (·.addChild p ns) := by
  rw [addNamespaceToList_eq W hs, h]

end

/-! ### Entries can be created in any order -/

namespace NamespaceInfo

variable {nsi : NamespaceInfo} {ns m q : NamespaceID} {a b : NamespaceAttribs}

@[simp] theorem set_self (nsi : NamespaceInfo) (ns : NamespaceID) (a : NamespaceAttribs) :
    (nsi.set ns a).nsList ns = some a := Function.update_self ..

@[simp] theorem set_ne (nsi : NamespaceInfo) (a : NamespaceAttribs) (h : m ≠ ns) :
    (nsi.set ns a).nsList m = nsi.nsList m := Function.update_of_ne h ..

@[simp] theorem set_rootNS (nsi : NamespaceInfo) (ns : NamespaceID) (a : NamespaceAttribs) :
    (nsi.set ns a).rootNS = nsi.rootNS := rfl

theorem set_comm (nsi : NamespaceInfo) (a b : NamespaceAttribs) (h : m ≠ ns) :
    (nsi.set ns a).set m b = (nsi.set m b).set ns a := by
  simp only [set, Function.update_comm h.symm]

theorem addChild_of_eq_some (h : nsi.nsList q = some a) (ns : NamespaceID) :
    nsi.addChild q ns = .ok (nsi.set q { a with children := a.children ++ [ns] }) := by
  rw [addChild, h]

theorem addChild_set (nsi : NamespaceInfo) (a : NamespaceAttribs) (h : q ≠ ns) (m : NamespaceID) :
    (nsi.set ns a).addChild q m = (nsi.addChild q m).map (·.set ns a) := by
  cases hq : nsi.nsList q with
  | none => rw [addChild, addChild, set_ne _ _ h, hq]; rfl
  | some b =>
    have hq' : (nsi.set ns a).nsList q = some b := by rw [set_ne _ _ h, hq]
    rw [addChild_of_eq_some hq, addChild_of_eq_some hq', set_comm _ _ _ h]
    rfl

theorem ensureInvis_set (nsi : NamespaceInfo) (a : NamespaceAttribs) (h : invisUserNS ≠ ns) :
    (nsi.set ns a).ensureInvis = nsi.ensureInvis.set ns a := by
  unfold ensureInvis
  rw [set_ne _ _ h]
  split
  · rfl
  · exact set_comm _ _ _ h

end NamespaceInfo

section
variable {H : Hierarchy} {opts : CmdLineOptions} {root ns : NamespaceID}

/-- The recursion does not look at the entry of a namespace that is not above. -/
theorem addNamespace_set (W : H.WellFormed opts root) {p : NamespaceID} (hs : H.InScope opts p)
    (hns : H.InScope opts ns) (hab : ¬ H.Above opts p ns) (a : NamespaceAttribs)
    (nsi : NamespaceInfo) :
    addNamespace H opts (nsi.set ns a) p (-1) =
      (addNamespace H opts nsi p (-1)).map (·.set ns a) := by
  induction p using (H.wf_ioctl opts).induction generalizing nsi with
  | _ p ih =>
    have hne : p ≠ ns := by
      rintro rfl
      exact hab .refl
    have hinvis : invisUserNS ≠ ns := by
      rintro rfl
      exact W.invis hns
    rw [addNamespace_neg, addNamespace_neg, NamespaceInfo.set_ne _ _ hne]
    split
    · rfl
    · rcases W.cases hs with ⟨q, hq⟩ | rfl | hinv
      · have hqns : ¬ H.Above opts q ns := fun h => hab (Hierarchy.above_iff.mpr (.inr ⟨q, hq, h⟩))
        have hqne : q ≠ ns := by
          rintro rfl
          exact hqns .refl
        rw [addNamespaceToList_parent W hs hq, addNamespaceToList_parent W hs hq,
          NamespaceInfo.set_comm _ _ _ hne, ih q hq (W.parent p q hs hq).1 hqns]
        cases addNamespace H opts (nsi.set p (H.attribs p)) q (-1) with
        | error e => rfl
        | ok nsi' => exact NamespaceInfo.addChild_set nsi' a hqne p
      · rw [addNamespaceToList_root W, addNamespaceToList_root W, NamespaceInfo.set_comm _ _ _ hne]
        rfl
      · rw [addNamespaceToList_invis W hs hinv, addNamespaceToList_invis W hs hinv,
          NamespaceInfo.set_comm _ _ _ hne, NamespaceInfo.ensureInvis_set _ _ hinvis,
          NamespaceInfo.addChild_set _ _ hinvis]

/-! ### Closed lists -/

/-- `m` has an entry. -/
def NamespaceInfo.Has (nsi : NamespaceInfo) (m : NamespaceID) : Prop := (nsi.nsList m).isSome

/-- The members recorded for `m`. -/
def NamespaceInfo.pidsOf (nsi : NamespaceInfo) (m : NamespaceID) : List Int :=
  ((nsi.nsList m).map (·.pids)).getD []

/-- The list is closed under ancestors, and the children lists are those of its entries. -/
structure Inv (H : Hierarchy) (opts : CmdLineOptions) (root : NamespaceID)
    (nsi : NamespaceInfo) : Prop where
  scope : ∀ m, nsi.Has m → m ≠ invisUserNS → H.InScope opts m
  closed : ∀ m q, nsi.Has m → H.Link opts m q → nsi.Has q
  children : ∀ q a, nsi.nsList q = some a →
    a.children.Nodup ∧ ∀ c, c ∈ a.children ↔ nsi.Has c ∧ H.Link opts c q
  root : nsi.Has root → nsi.rootNS = root

theorem inv_empty (H : Hierarchy) (opts : CmdLineOptions) (root : NamespaceID) :
    Inv H opts root .empty where
  scope m h := by cases h
  closed m q h := by cases h
  children q a h := by cases h
  root h := by cases h

variable {nsi : NamespaceInfo}

theorem NamespaceInfo.has_set {m : NamespaceID} (nsi : NamespaceInfo) (ns : NamespaceID)
    (a : NamespaceAttribs) : (nsi.set ns a).Has m ↔ m = ns ∨ nsi.Has m := by
  by_cases h : m = ns
  · subst h
    simp [NamespaceInfo.Has]
  · simp [NamespaceInfo.Has, h]

theorem NamespaceInfo.has_set_set {m q : NamespaceID} (hq : nsi.Has q) (a b : NamespaceAttribs) :
    ((nsi.set ns a).set q b).Has m ↔ m = ns ∨ nsi.Has m := by
  rw [NamespaceInfo.has_set, NamespaceInfo.has_set]
  constructor
  · rintro (rfl | h)
    · exact .inr hq
    · exact h
  · exact .inr

theorem Inv.above (I : Inv H opts root nsi) {m : NamespaceID} (W : H.WellFormed opts root)
    (hs : H.InScope opts ns) (h : nsi.Has ns) (hab : H.Above opts ns m) : nsi.Has m := by
  induction hab with
  | refl => exact h
  | tail hab hp ih => exact I.closed _ _ ih ⟨Hierarchy.Above.inScope W hs hab, .inl hp⟩

/-- A new entry that is put in the children list it belongs in. -/
theorem Inv.insert (I : Inv H opts root nsi) {nsi' : NamespaceInfo} (hs : H.InScope opts ns)
    (hnew : ¬ nsi.Has ns) (hhas : ∀ m, nsi'.Has m ↔ m = ns ∨ nsi.Has m)
    (hlink : ∀ q, H.Link opts ns q → nsi.Has q)
    (hself : ∀ a, nsi'.nsList ns = some a → a.children = [])
    (hmove : ∀ q a', q ≠ ns → nsi'.nsList q = some a' → ∃ a, nsi.nsList q = some a ∧
      (H.Link opts ns q ∧ a'.children = a.children ++ [ns] ∨
        ¬ H.Link opts ns q ∧ a'.children = a.children))
    (hroot : nsi'.Has root → nsi'.rootNS = root) : Inv H opts root nsi' := by
  refine ⟨?_, ?_, ?_, hroot⟩
  · intro m hm hne
    rcases (hhas m).mp hm with rfl | hm
    · exact hs
    · exact I.scope m hm hne
  · intro m q hm hl
    rcases (hhas m).mp hm with rfl | hm
    · exact (hhas q).mpr (.inr (hlink q hl))
    · exact (hhas q).mpr (.inr (I.closed m q hm hl))
  · intro q a' hq
    by_cases hqn : q = ns
    · subst hqn
      rw [hself a' hq]
      refine ⟨List.nodup_nil, fun c => ⟨fun h => absurd h List.not_mem_nil, ?_⟩⟩
      rintro ⟨hc, hl⟩
      rcases (hhas c).mp hc with rfl | hc
      · exact absurd (hlink _ hl) hnew
      · exact absurd (I.closed c q hc hl) hnew
    · obtain ⟨a, ha, hcase⟩ := hmove q a' hqn hq
      obtain ⟨hnd, hmem⟩ := I.children q a ha
      have hfresh : ns ∉ a.children := fun h => hnew ((hmem ns).mp h).1
      rcases hcase with ⟨hl, hc⟩ | ⟨hl, hc⟩ <;> rw [hc]
      · refine ⟨hnd.append (List.nodup_singleton ns) (by simpa using hfresh), fun c => ?_⟩
        rw [List.mem_append, List.mem_singleton, hmem c, hhas c]
        constructor
        · rintro (⟨h, hlc⟩ | rfl)
          · exact ⟨.inr h, hlc⟩
          · exact ⟨.inl rfl, hl⟩
        · rintro ⟨rfl | h, hlc⟩
          · exact .inr rfl
          · exact .inl ⟨h, hlc⟩
      · refine ⟨hnd, fun c => ?_⟩
        rw [hmem c, hhas c]
        constructor
        · exact fun ⟨h, hlc⟩ => ⟨.inr h, hlc⟩
        · rintro ⟨rfl | h, hlc⟩
          · exact absurd hlc hl
          · exact ⟨h, hlc⟩

theorem Hierarchy.WellFormed.not_link_root (W : H.WellFormed opts root) (q : NamespaceID) :
    ¬ H.Link opts root q := by
  rintro ⟨-, h | ⟨h, -⟩⟩
  · cases W.root_ioctl.symm.trans h
  · exact h.2 W.root_inTree

/-- The topmost namespace gets its entry. -/
theorem Inv.set_root (I : Inv H opts root nsi) (W : H.WellFormed opts root)
    (hnew : ¬ nsi.Has root) :
    Inv H opts root { nsi.set root (H.attribs root) with rootNS := root } := by
  refine I.insert W.root_inScope hnew (fun m => nsi.has_set root _)
    (fun q hl => absurd hl (W.not_link_root q)) ?_ ?_ (fun _ => rfl)
  · intro a ha
    rw [show a = H.attribs root by simpa using ha.symm, Hierarchy.attribs_children]
  · intro q a' hq ha
    exact ⟨a', by simpa [hq] using ha, .inr ⟨W.not_link_root q, rfl⟩⟩

/-- A namespace gets its entry, and is made a child of `q`. -/
theorem Inv.set_child (I : Inv H opts root nsi) (W : H.WellFormed opts root)
    (hnew : ¬ nsi.Has ns) {q : NamespaceID} (hl : H.Link opts ns q) {a : NamespaceAttribs}
    (ha : nsi.nsList q = some a) :
    Inv H opts root ((nsi.set ns (H.attribs ns)).set q { a with children := a.children ++ [ns] }) := by
  have hq : nsi.Has q := by simp [NamespaceInfo.Has, ha]
  have hne : q ≠ ns := by
    rintro rfl
    exact hnew hq
  have hnr : ns ≠ root := by
    rintro rfl
    exact W.not_link_root q hl
  have hhas : ∀ m, ((nsi.set ns (H.attribs ns)).set q { a with
      children := a.children ++ [ns] }).Has m ↔ m = ns ∨ nsi.Has m :=
    fun m => NamespaceInfo.has_set_set hq _ _
  refine I.insert hl.1 hnew hhas ?_ ?_ ?_ ?_
  · intro q' hl'
    rwa [← hl.unique hl']
  · intro b hb
    rw [NamespaceInfo.set_ne _ _ hne.symm, NamespaceInfo.set_self] at hb
    rw [← Option.some.inj hb, Hierarchy.attribs_children]
  · intro q' a' hq' ha'
    by_cases h : q' = q
    · subst h
      rw [NamespaceInfo.set_self] at ha'
      exact ⟨a, ha, .inl ⟨hl, by rw [← Option.some.inj ha']⟩⟩
    · rw [NamespaceInfo.set_ne _ _ h, NamespaceInfo.set_ne _ _ hq'] at ha'
      exact ⟨a', ha', .inr ⟨fun hl' => h (hl'.unique hl), rfl⟩⟩
  · intro hr
    rcases (hhas root).mp hr with h | h
    · exact absurd h.symm hnr
    · exact I.root h

theorem NamespaceInfo.has_ensureInvis (nsi : NamespaceInfo) {m : NamespaceID} :
    nsi.ensureInvis.Has m ↔ m = invisUserNS ∨ nsi.Has m := by
  unfold NamespaceInfo.ensureInvis
  split
  · rename_i h
    constructor
    · exact .inr
    · rintro (rfl | hm)
      · exact h
      · exact hm
  · exact nsi.has_set ..

theorem Inv.ensureInvis (I : Inv H opts root nsi) (W : H.WellFormed opts root) :
    Inv H opts root nsi.ensureInvis := by
  have hnl : ∀ q, ¬ H.Link opts invisUserNS q := fun q hl => W.invis hl.1
  refine ⟨?_, ?_, ?_, ?_⟩
  · intro m hm hne
    exact I.scope m ((nsi.has_ensureInvis.mp hm).resolve_left hne) hne
  · intro m q hm hl
    rcases nsi.has_ensureInvis.mp hm with rfl | hm
    · exact absurd hl (hnl q)
    · exact nsi.has_ensureInvis.mpr (.inr (I.closed m q hm hl))
  · intro q a hq
    have hiff : ∀ c, nsi.ensureInvis.Has c ∧ H.Link opts c q ↔ nsi.Has c ∧ H.Link opts c q := by
      intro c
      rw [nsi.has_ensureInvis]
      constructor
      · rintro ⟨rfl | h, hl⟩
        · exact absurd hl (hnl q)
        · exact ⟨h, hl⟩
      · exact fun ⟨h, hl⟩ => ⟨.inr h, hl⟩
    simp only [hiff]
    unfold NamespaceInfo.ensureInvis at hq
    split at hq
    · exact I.children q a hq
    · rename_i hinv
      by_cases h : q = invisUserNS
      · subst h
        rw [NamespaceInfo.set_self] at hq
        rw [← Option.some.inj hq]
        refine ⟨List.nodup_nil, fun c => ⟨fun h => absurd h List.not_mem_nil, ?_⟩⟩
        rintro ⟨hc, hl⟩
        exact absurd (I.closed c _ hc hl) hinv
      · rw [NamespaceInfo.set_ne _ _ h] at hq
        exact I.children q a hq
  · intro hr
    have hrne : root ≠ invisUserNS := by
      rintro rfl
      exact W.invis W.root_inScope
    have := I.root ((nsi.has_ensureInvis.mp hr).resolve_left hrne)
    unfold NamespaceInfo.ensureInvis
    split <;> exact this

/-! ### One call -/

theorem NamespaceInfo.pidsOf_set {a : NamespaceAttribs} (h : a.pids = nsi.pidsOf ns)
    (m : NamespaceID) : (nsi.set ns a).pidsOf m = nsi.pidsOf m := by
  by_cases hm : m = ns
  · subst hm
    rw [← h]
    simp [NamespaceInfo.pidsOf]
  · simp [NamespaceInfo.pidsOf, hm]

theorem NamespaceInfo.pidsOf_of_eq_some {a : NamespaceAttribs} (h : nsi.nsList ns = some a) :
    nsi.pidsOf ns = a.pids := by
  simp [NamespaceInfo.pidsOf, h]

theorem NamespaceInfo.pidsOf_of_not_has (h : ¬ nsi.Has ns) : nsi.pidsOf ns = [] := by
  rw [NamespaceInfo.Has, Option.not_isSome_iff_eq_none] at h
  simp [NamespaceInfo.pidsOf, h]

theorem NamespaceInfo.pidsOf_ensureInvis (nsi : NamespaceInfo) (m : NamespaceID) :
    nsi.ensureInvis.pidsOf m = nsi.pidsOf m := by
  unfold NamespaceInfo.ensureInvis
  split
  · rfl
  · rename_i h
    exact NamespaceInfo.pidsOf_set (NamespaceInfo.pidsOf_of_not_has h).symm m

/-- What a new entry for `ns` and its link to `q` change. -/
theorem NamespaceInfo.set_child_frame {q : NamespaceID} {a : NamespaceAttribs}
    (hnew : ¬ nsi.Has ns) (ha : nsi.nsList q = some a) :
    (∀ m, ((nsi.set ns (H.attribs ns)).set q { a with children := a.children ++ [ns] }).Has m ↔
      m = ns ∨ nsi.Has m) ∧
    ∀ m, ((nsi.set ns (H.attribs ns)).set q { a with children := a.children ++ [ns] }).pidsOf m =
      nsi.pidsOf m := by
  have hq : nsi.Has q := by simp [NamespaceInfo.Has, ha]
  refine ⟨fun m => NamespaceInfo.has_set_set hq _ _, fun m => ?_⟩
  have hset := NamespaceInfo.pidsOf_set (a := H.attribs ns)
    (by rw [NamespaceInfo.pidsOf_of_not_has hnew, Hierarchy.attribs_pids])
  rw [NamespaceInfo.pidsOf_set, hset]
  rw [hset, NamespaceInfo.pidsOf_of_eq_some ha]

/-- `nsi'` is closed and has, besides the entries of `nsi`, those that `ns` needs; no members have
been added. -/
structure Added (H : Hierarchy) (opts : CmdLineOptions) (root : NamespaceID) (nsi : NamespaceInfo)
    (ns : NamespaceID) (nsi' : NamespaceInfo) : Prop where
  inv : Inv H opts root nsi'
  has_iff : ∀ m, nsi'.Has m ↔ nsi.Has m ∨ H.Above opts ns m ∨
    m = invisUserNS ∧ H.OwnerInvisible opts ns
  pidsOf : ∀ m, nsi'.pidsOf m = nsi.pidsOf m

/-- An entry that is there already has all that it needs. -/
theorem Inv.added_self (I : Inv H opts root nsi) (W : H.WellFormed opts root)
    (hs : H.InScope opts ns) (h : nsi.Has ns) : Added H opts root nsi ns nsi := by
  refine ⟨I, fun m => ⟨.inl, ?_⟩, fun _ => rfl⟩
  rintro (hm | hm | ⟨rfl, hm⟩)
  · exact hm
  · exact I.above W hs h hm
  · exact I.closed ns _ h ⟨hs, .inr ⟨hm, rfl⟩⟩

/-- A namespace with a parent, once the parent has what it needs. -/
theorem Added.parent {nsi₁ : NamespaceInfo} {p : NamespaceID} (A : Added H opts root nsi p nsi₁)
    (W : H.WellFormed opts root) (hs : H.InScope opts ns) (hnew : ¬ nsi.Has ns)
    (hp : H.ioctl opts ns = .ok p) (h₁ : addNamespace H opts nsi p (-1) = .ok nsi₁) :
    ∃ nsi', addNamespaceToList H opts nsi ns = .ok nsi' ∧ Added H opts root nsi ns nsi' := by
  obtain ⟨hps, hpt⟩ := W.parent ns p hs hp
  have hab := Hierarchy.not_above_of_parent hp
  have hnew₁ : ¬ nsi₁.Has ns := by
    rw [A.has_iff]
    rintro (h | h | ⟨rfl, -⟩)
    · exact hnew h
    · exact hab h
    · exact W.invis hs
  obtain ⟨a, ha⟩ := Option.isSome_iff_exists.mp ((A.has_iff p).mpr (.inr (.inl .refl)))
  have hpne : p ≠ ns := by
    rintro rfl
    exact hab .refl
  have ha' : (nsi₁.set ns (H.attribs ns)).nsList p = some a := by
    rw [NamespaceInfo.set_ne _ _ hpne, ha]
  obtain ⟨hhas, hpids⟩ := NamespaceInfo.set_child_frame (H := H) hnew₁ ha
  refine ⟨_, ?_, A.inv.set_child W hnew₁ ⟨hs, .inl hp⟩ ha, fun m => ?_, fun m => ?_⟩
  · rw [addNamespaceToList_parent W hs hp, addNamespace_set W hps hs hab, h₁]
    exact NamespaceInfo.addChild_of_eq_some ha' ns
  · have hpo : ¬ H.OwnerInvisible opts p := fun h => h.2 hpt
    have hno : ¬ H.OwnerInvisible opts ns := fun h => by cases hp.symm.trans h.1
    have hup : H.Above opts ns m ↔ m = ns ∨ H.Above opts p m := by
      rw [Hierarchy.above_iff]
      simp [hp]
    rw [hhas m, A.has_iff m, hup]
    simp only [hpo, hno, and_false, or_false]
    exact or_left_comm
  · rw [hpids m, A.pidsOf m]

/-- The topmost namespace. -/
theorem Inv.added_root (I : Inv H opts root nsi) (W : H.WellFormed opts root)
    (hnew : ¬ nsi.Has root) :
    Added H opts root nsi root { nsi.set root (H.attribs root) with rootNS := root } := by
  refine ⟨I.set_root W hnew, fun m => ?_, fun m => ?_⟩
  · have hno : ¬ H.OwnerInvisible opts root := fun h => h.2 W.root_inTree
    have hab : H.Above opts root m ↔ m = root := by
      rw [Hierarchy.above_iff]
      simp [W.root_ioctl]
    rw [hab]
    refine (nsi.has_set root (H.attribs root)).trans ?_
    simp [hno, or_comm]
  · exact NamespaceInfo.pidsOf_set
      (by rw [NamespaceInfo.pidsOf_of_not_has hnew, Hierarchy.attribs_pids]) m

/-- A namespace whose owner is not visible. -/
theorem Inv.added_invis (I : Inv H opts root nsi) (W : H.WellFormed opts root)
    (hs : H.InScope opts ns) (hnew : ¬ nsi.Has ns) (hinv : H.OwnerInvisible opts ns) :
    ∃ nsi', addNamespaceToList H opts nsi ns = .ok nsi' ∧ Added H opts root nsi ns nsi' := by
  have hne : ns ≠ invisUserNS := by
    rintro rfl
    exact W.invis hs
  have hnew' : ¬ nsi.ensureInvis.Has ns := by
    rw [nsi.has_ensureInvis]
    rintro (h | h)
    · exact hne h
    · exact hnew h
  obtain ⟨a, ha⟩ := Option.isSome_iff_exists.mp (nsi.has_ensureInvis.mpr (.inl rfl))
  have ha' : (nsi.ensureInvis.set ns (H.attribs ns)).nsList invisUserNS = some a := by
    rw [NamespaceInfo.set_ne _ _ hne.symm, ha]
  obtain ⟨hhas, hpids⟩ := NamespaceInfo.set_child_frame (H := H) hnew' ha
  refine ⟨_, ?_, (I.ensureInvis W).set_child W hnew' ⟨hs, .inr ⟨hinv, rfl⟩⟩ ha, fun m => ?_,
    fun m => ?_⟩
  · rw [addNamespaceToList_invis W hs hinv, NamespaceInfo.ensureInvis_set _ _ hne.symm]
    exact NamespaceInfo.addChild_of_eq_some ha' ns
  · have hab : H.Above opts ns m ↔ m = ns := by
      rw [Hierarchy.above_iff]
      simp [hinv.1]
    rw [hhas m, nsi.has_ensureInvis, hab]
    simp only [hinv, and_true]
    exact or_rotate.symm
  · rw [hpids m, nsi.pidsOf_ensureInvis m]

/-- A closed list is closed again after a call, and has exactly the new entries that it should. -/
theorem Inv.addNamespace_neg (I : Inv H opts root nsi) (W : H.WellFormed opts root)
    (hs : H.InScope opts ns) :
    ∃ nsi', addNamespace H opts nsi ns (-1) = .ok nsi' ∧ Added H opts root nsi ns nsi' := by
  induction ns using (H.wf_ioctl opts).induction with
  | _ ns ih =>
    rw [NamespacesOf.addNamespace_neg]
    by_cases hnew : nsi.Has ns
    · exact ⟨nsi, if_pos hnew, I.added_self W hs hnew⟩
    · rw [if_neg (show ¬ (nsi.nsList ns).isSome = true from hnew)]
      rcases W.cases hs with ⟨p, hp⟩ | rfl | hinv
      · obtain ⟨nsi₁, h₁, A⟩ := ih p hp (W.parent ns p hs hp).1
        exact A.parent W hs hnew hp h₁
      · exact ⟨_, addNamespaceToList_root W nsi, I.added_root W hnew⟩
      · exact I.added_invis W hs hnew hinv

/-- The entry is created first and the PID added after that. -/
theorem addNamespace_eq_bind (nsi : NamespaceInfo) (ns : NamespaceID) (pid : Int) :
    addNamespace H opts nsi ns pid = (addNamespace H opts nsi ns (-1)).bind fun nsi =>
      if 0 < pid then nsi.addPid ns pid else .ok nsi := by
  rw [NamespacesOf.addNamespace_neg, addNamespace]
  cases (if (nsi.nsList ns).isSome then .ok nsi else addNamespaceToList H opts nsi ns) <;> rfl

theorem addNamespace_pos {pid : Int} (hpid : 0 < pid) (nsi : NamespaceInfo) (ns : NamespaceID) :
    addNamespace H opts nsi ns pid =
      (addNamespace H opts nsi ns (-1)).bind (·.addPid ns pid) := by
  rw [addNamespace_eq_bind]
  exact congrArg (Except.bind _) (funext fun nsi => if_pos hpid)

/-- The members of an entry do not matter for the shape of the list. -/
theorem Inv.set_pids (I : Inv H opts root nsi) {a : NamespaceAttribs}
    (ha : nsi.nsList ns = some a) (pids : List Int) :
    Inv H opts root (nsi.set ns { a with pids }) := by
  have hhas : ∀ m, (nsi.set ns { a with pids }).Has m ↔ nsi.Has m := by
    intro m
    rw [NamespaceInfo.has_set]
    constructor
    · rintro (rfl | h)
      · simp [NamespaceInfo.Has, ha]
      · exact h
    · exact .inr
  refine ⟨?_, ?_, ?_, ?_⟩
  · exact fun m hm hne => I.scope m ((hhas m).mp hm) hne
  · exact fun m q hm hl => (hhas q).mpr (I.closed m q ((hhas m).mp hm) hl)
  · intro q b hq
    simp only [hhas]
    by_cases h : q = ns
    · subst h
      rw [NamespaceInfo.set_self] at hq
      rw [← Option.some.inj hq]
      exact I.children q a ha
    · rw [NamespaceInfo.set_ne _ _ h] at hq
      exact I.children q b hq
  · exact fun hr => I.root ((hhas root).mp hr)

/-! ### Sequences of calls -/

/-- The entries and their members are those of the calls made. -/
structure Tracks (H : Hierarchy) (opts : CmdLineOptions) (calls : List (NamespaceID × Int))
    (nsi : NamespaceInfo) : Prop where
  has_iff : ∀ m, nsi.Has m ↔ (∃ c ∈ calls, H.Above opts c.1 m) ∨
    m = invisUserNS ∧ ∃ c ∈ calls, H.OwnerInvisible opts c.1
  pidsOf : ∀ m, nsi.pidsOf m = (calls.filter (·.1 = m)).map (·.2)

theorem tracks_empty (H : Hierarchy) (opts : CmdLineOptions) : Tracks H opts [] .empty where
  has_iff m := by simp [NamespaceInfo.Has, NamespaceInfo.empty]
  pidsOf m := rfl

theorem Tracks.addNamespace {calls : List (NamespaceID × Int)} {pid : Int}
    (T : Tracks H opts calls nsi) (I : Inv H opts root nsi) (W : H.WellFormed opts root)
    (hs : H.InScope opts ns) (hpid : 0 < pid) :
    ∃ nsi', NamespacesOf.addNamespace H opts nsi ns pid = .ok nsi' ∧ Inv H opts root nsi' ∧
      Tracks H opts (calls ++ [(ns, pid)]) nsi' := by
  obtain ⟨nsi₁, h₁, I₁, hhas₁, hpids₁⟩ := I.addNamespace_neg W hs
  obtain ⟨a, ha⟩ := Option.isSome_iff_exists.mp ((hhas₁ ns).mpr (.inr (.inl .refl)))
  have hadd : nsi₁.addPid ns pid = .ok (nsi₁.set ns { a with pids := a.pids ++ [pid] }) := by
    rw [NamespaceInfo.addPid, ha]
  refine ⟨_, ?_, I₁.set_pids ha (a.pids ++ [pid]), ?_, ?_⟩
  · rw [addNamespace_pos hpid, h₁]
    exact hadd
  · intro m
    have hset : (nsi₁.set ns { a with pids := a.pids ++ [pid] }).Has m ↔ nsi₁.Has m := by
      rw [NamespaceInfo.has_set]
      constructor
      · rintro (rfl | h)
        · simp [NamespaceInfo.Has, ha]
        · exact h
      · exact .inr
    rw [hset, hhas₁, T.has_iff]
    simp only [List.mem_append, List.mem_singleton, or_and_right, exists_or, exists_eq_left,
      and_or_left]
    exact or_or_or_comm
  · intro m
    by_cases hm : m = ns
    · subst hm
      have : a.pids = (calls.filter (·.1 = m)).map (·.2) := by
        rw [← T.pidsOf, ← hpids₁, NamespaceInfo.pidsOf_of_eq_some ha]
      simp [NamespaceInfo.pidsOf, this, List.filter_append]
    · have : (nsi₁.set ns { a with pids := a.pids ++ [pid] }).pidsOf m = nsi₁.pidsOf m := by
        simp [NamespaceInfo.pidsOf, hm]
      rw [this, hpids₁, T.pidsOf, List.filter_append]
      simp [Ne.symm hm]

theorem addNamespaces_spec (W : H.WellFormed opts root) {done calls : List (NamespaceID × Int)}
    (I : Inv H opts root nsi) (T : Tracks H opts done nsi)
    (hcalls : ∀ c ∈ calls, H.InScope opts c.1 ∧ 0 < c.2) :
    ∃ nsi', addNamespaces H opts nsi calls = .ok nsi' ∧ Inv H opts root nsi' ∧
      Tracks H opts (done ++ calls) nsi' := by
  induction calls generalizing nsi done with
  | nil => exact ⟨nsi, rfl, I, by simpa using T⟩
  | cons c calls ih =>
    obtain ⟨ns, pid⟩ := c
    obtain ⟨hs, hpid⟩ := hcalls _ List.mem_cons_self
    obtain ⟨nsi₁, h₁, I₁, T₁⟩ := T.addNamespace I W hs hpid
    obtain ⟨nsi₂, h₂, I₂, T₂⟩ := ih I₁ T₁ fun c hc => hcalls c (List.mem_cons_of_mem _ hc)
    refine ⟨nsi₂, ?_, I₂, by simpa using T₂⟩
    rw [addNamespaces, h₁]
    exact h₂

end

end Tlpi.NamespacesOf
