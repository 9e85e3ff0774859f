import Tlpi.Namespaces.NamespacesOfLemmas

/-!
# The PID namespace hierarchy (`namespaces/pid_namespaces.go`)

`AddNamespace` is the recursion of `namespaces_of.go` for PID namespaces alone: the map `NSList`
has only children and PIDs, and the type of a namespace is never asked for. Forgetting the type and
the creator of every entry takes each call of `addNamespace` under `--pidns` to a call of
`AddNamespace` (`addNamespace_project`).
-/

namespace Tlpi.PidNamespaces

open NamespacesOf (NamespaceID Hierarchy Errno EPERM Stop CmdLineOptions NamespaceInfo)

structure NamespaceAttribs where
  children : List NamespaceID
  pids : List Int
  deriving DecidableEq, Repr

/-- The global variables `NSList` and `initialPidNS`. -/
structure Globals where
  nsList : NamespaceID → Option NamespaceAttribs
  initialPidNS : NamespaceID

namespace Globals

/-- `NSList` is `make(map[NamespaceID]*NamespaceAttribs)`. -/
def empty : Globals := ⟨fun _ => none, ⟨0, 0⟩⟩

def set (g : Globals) (nsid : NamespaceID) (a : NamespaceAttribs) : Globals :=
  { g with nsList := Function.update g.nsList nsid (some a) }

/-- `NSList[p].children = append(NSList[p].children, nsid)` -/
def addChild (g : Globals) (p nsid : NamespaceID) : Except Stop Globals :=
  match g.nsList p with
  | none => .error .nilDereference
  | some a => .ok (g.set p { a with children := a.children ++ [nsid] })

/-- `NSList[nsid].pids = append(NSList[nsid].pids, pid)` -/
def addPid (g : Globals) (nsid : NamespaceID) (pid : Int) : Except Stop Globals :=
  match g.nsList nsid with
  | none => .error .nilDereference
  | some a => .ok (g.set nsid { a with pids := a.pids ++ [pid] })

end Globals

variable (H : Hierarchy)

def addNamespace (g : Globals) (nsid : NamespaceID) (pid : Int) : Except Stop Globals :=
  let added : Except Stop Globals :=
    if (g.nsList nsid).isSome then .ok g
    else
      let g := g.set nsid ⟨[], []⟩
      match _h : H.nsGetParent nsid with
      | .error e => if e = EPERM then .ok { g with initialPidNS := nsid } else .error .exit
      | .ok p =>
        match addNamespace g p (-1) with
        | .error e => .error e
        | .ok g => g.addChild p nsid
  match added with
  | .error e => .error e
  | .ok g => if 0 < pid then g.addPid nsid pid else .ok g
termination_by H.wf_parent.wrap nsid
decreasing_by exact _h

/-- The calls of `AddProcessNamespace`, one for each process. -/
def addNamespaces (g : Globals) : List (NamespaceID × Int) → Except Stop Globals
  | [] => .ok g
  | (nsid, pid) :: calls =>
    match addNamespace H g nsid pid with
    | .error e => .error e
    | .ok g => addNamespaces g calls

/-- What the kernel promises about PID namespaces, with `root` the topmost visible one. -/
structure PidHierarchy (root : NamespaceID) : Prop where
  root_pid : H.nsGetNstype root = .ok .pid
  parent : ∀ ns p, H.nsGetNstype ns = .ok .pid → H.nsGetParent ns = .ok p →
    H.nsGetNstype p = .ok .pid
  error : ∀ ns e, H.nsGetNstype ns = .ok .pid → H.nsGetParent ns = .error e → e = EPERM
  topmost : ∀ ns, H.nsGetNstype ns = .ok .pid → (H.nsGetParent ns = .error EPERM ↔ ns = root)

/-- The two programs have recorded the same hierarchy. -/
structure Same (nsi : NamespaceInfo) (g : Globals) : Prop where
  keys : ∀ m, (nsi.nsList m).isSome ↔ (g.nsList m).isSome
  children : ∀ m a b, nsi.nsList m = some a → g.nsList m = some b → a.children = b.children
  pids : ∀ m a b, nsi.nsList m = some a → g.nsList m = some b → a.pids = b.pids
  root : nsi.rootNS = g.initialPidNS

/-! ### Forgetting types and creators -/

def project (nsi : NamespaceInfo) : Globals :=
  ⟨fun m => (nsi.nsList m).map fun a => ⟨a.children, a.pids⟩, nsi.rootNS⟩

@[simp] theorem project_nsList (nsi : NamespaceInfo) (m : NamespaceID) :
    (project nsi).nsList m = (nsi.nsList m).map fun a => ⟨a.children, a.pids⟩ := rfl

theorem project_empty : project .empty = .empty := rfl

theorem same_project (nsi : NamespaceInfo) : Same nsi (project nsi) where
  keys m := by simp
  children m a b ha hb := by
    rw [project_nsList, ha] at hb
    cases hb
    rfl
  pids m a b ha hb := by
    rw [project_nsList, ha] at hb
    cases hb
    rfl
  root := rfl

theorem project_set (nsi : NamespaceInfo) (ns : NamespaceID) (a : NamespacesOf.NamespaceAttribs) :
    project (nsi.set ns a) = (project nsi).set ns ⟨a.children, a.pids⟩ := by
  have h : ∀ m, (project (nsi.set ns a)).nsList m =
      ((project nsi).set ns ⟨a.children, a.pids⟩).nsList m := by
    intro m
    by_cases hm : m = ns
    · subst hm
      simp [Globals.set]
    · simp [Globals.set, hm]
  exact congrArg (Globals.mk · nsi.rootNS) (funext h)

theorem project_addChild (nsi : NamespaceInfo) (q ns : NamespaceID) :
    (project nsi).addChild q ns = (nsi.addChild q ns).map project := by
  cases h : nsi.nsList q with
  | none => simp [Globals.addChild, NamespaceInfo.addChild, h, Except.map]
  | some a => simp [Globals.addChild, NamespaceInfo.addChild, h, Except.map, project_set]

theorem project_addPid (nsi : NamespaceInfo) (ns : NamespaceID) (pid : Int) :
    (project nsi).addPid ns pid = (nsi.addPid ns pid).map project := by
  cases h : nsi.nsList ns with
  | none => simp [Globals.addPid, NamespaceInfo.addPid, h, Except.map]
  | some a => simp [Globals.addPid, NamespaceInfo.addPid, h, Except.map, project_set]

/-! ### The two recursions -/

section
variable {H} {opts : CmdLineOptions} {root ns : NamespaceID}

/-- What `addNamespaceToList` does for a PID namespace under `--pidns`. -/
theorem addNamespaceToList_pid (hopts : opts.showPidnsHierarchy = true)
    (hns : H.nsGetNstype ns = .ok .pid) (nsi : NamespaceInfo) :
    NamespacesOf.addNamespaceToList H opts nsi ns =
      match H.nsGetParent ns with
      | .error e =>
        if e = EPERM then .ok { nsi.set ns ⟨.pid, [], [], 0⟩ with rootNS := ns }
        else .error .exit
      | .ok p =>
        (NamespacesOf.addNamespace H opts (nsi.set ns ⟨.pid, [], [], 0⟩) p (-1)).bind
          (·.addChild p ns) := by
  have hioctl : H.ioctl opts ns = H.nsGetParent ns := if_pos hopts
  rw [NamespacesOf.addNamespaceToList, hns]
  simp only [reduceCtorEq, if_false, hopts, or_true, if_true]
  split
  · rename_i e he
    rw [← hioctl, he]
    simp only [ne_eq, ite_not]
  · rename_i p hp
    rw [← hioctl, hp]
    simp only
    cases NamespacesOf.addNamespace H opts (nsi.set ns ⟨.pid, [], [], 0⟩) p (-1) <;> rfl

/-- The part of `AddNamespace` that makes the entry. -/
def enter (H : Hierarchy) (g : Globals) (ns : NamespaceID) : Except Stop Globals :=
  if (g.nsList ns).isSome then .ok g
  else match H.nsGetParent ns with
    | .error e =>
      if e = EPERM then .ok { g.set ns ⟨[], []⟩ with initialPidNS := ns } else .error .exit
    | .ok p => (addNamespace H (g.set ns ⟨[], []⟩) p (-1)).bind (·.addChild p ns)

theorem addNamespace_eq (g : Globals) (ns : NamespaceID) (pid : Int) :
    addNamespace H g ns pid =
      (enter H g ns).bind fun g => if 0 < pid then g.addPid ns pid else .ok g := by
  rw [addNamespace, enter]
  by_cases hg : (g.nsList ns).isSome
  · rw [if_pos hg, if_pos hg]
    rfl
  · rw [if_neg hg, if_neg hg]
    generalize H.nsGetParent ns = parent
    cases parent with
    | error e => by_cases he : e = EPERM <;> simp [he, Except.bind]
    | ok p =>
      dsimp only
      cases addNamespace H (g.set ns ⟨[], []⟩) p (-1) with
      | error e => rfl
      | ok t =>
        simp only [Except.bind]
        cases t.addChild p ns <;> rfl

theorem addNamespace_neg_one (g : Globals) (ns : NamespaceID) :
    addNamespace H g ns (-1) = enter H g ns := by
  rw [addNamespace_eq]
  cases enter H g ns <;> rfl

/-- `AddNamespace` computes the projection of what `addNamespace` computes. -/
theorem addNamespace_neg_one_project (P : PidHierarchy H root)
    (hopts : opts.showPidnsHierarchy = true) (hns : H.nsGetNstype ns = .ok .pid)
    (nsi : NamespaceInfo) :
    addNamespace H (project nsi) ns (-1) =
      (NamespacesOf.addNamespace H opts nsi ns (-1)).map project := by
  induction ns using H.wf_parent.induction generalizing nsi with
  | _ ns ih =>
    rw [addNamespace_neg_one, enter, NamespacesOf.addNamespace_neg,
      addNamespaceToList_pid hopts hns, project_nsList, Option.isSome_map]
    split
    · rfl
    · cases hp : H.nsGetParent ns with
      | error e =>
        obtain rfl := P.error ns e hns hp
        have h := project_set nsi ns ⟨.pid, [], [], 0⟩
        exact congrArg (fun g : Globals => Except.ok { g with initialPidNS := ns }) h.symm
      | ok p =>
        have h := ih p hp (P.parent ns p hns hp) (nsi.set ns ⟨.pid, [], [], 0⟩)
        rw [project_set] at h
        simp only [h]
        cases NamespacesOf.addNamespace H opts (nsi.set ns ⟨.pid, [], [], 0⟩) p (-1) with
        | error e => rfl
        | ok nsi' => exact project_addChild nsi' p ns

theorem addNamespace_project (P : PidHierarchy H root) (hopts : opts.showPidnsHierarchy = true)
    (hns : H.nsGetNstype ns = .ok .pid) (nsi : NamespaceInfo) (pid : Int) :
    addNamespace H (project nsi) ns pid =
      (NamespacesOf.addNamespace H opts nsi ns pid).map project := by
  rw [addNamespace_eq, ← addNamespace_neg_one, addNamespace_neg_one_project P hopts hns,
    NamespacesOf.addNamespace_eq_bind nsi ns pid]
  cases NamespacesOf.addNamespace H opts nsi ns (-1) with
  | error e => rfl
  | ok nsi' =>
    simp only [Except.map, Except.bind]
    split
    · exact project_addPid nsi' ns pid
    · rfl

theorem addNamespaces_project (P : PidHierarchy H root)
    (hopts : opts.showPidnsHierarchy = true) {calls : List (NamespaceID × Int)}
    (hcalls : ∀ c ∈ calls, H.nsGetNstype c.1 = .ok .pid) (nsi : NamespaceInfo) :
    addNamespaces H (project nsi) calls =
      (NamespacesOf.addNamespaces H opts nsi calls).map project := by
  induction calls generalizing nsi with
  | nil => rfl
  | cons c calls ih =>
    have hc := hcalls c List.mem_cons_self
    rw [addNamespaces, NamespacesOf.addNamespaces, addNamespace_project P hopts hc]
    cases NamespacesOf.addNamespace H opts nsi c.1 c.2 with
    | error e => rfl
    | ok nsi' => exact ih (fun d hd => hcalls d (List.mem_cons_of_mem c hd)) nsi'

/-! ### No call fails -/

theorem exists_addChild {nsi : NamespaceInfo} {q : NamespaceID} (h : nsi.Has q)
    (ns : NamespaceID) :
    ∃ nsi', nsi.addChild q ns = .ok nsi' ∧ ∀ m, nsi.Has m → nsi'.Has m := by
  obtain ⟨a, ha⟩ := Option.isSome_iff_exists.mp h
  exact ⟨_, NamespaceInfo.addChild_of_eq_some ha ns, fun m hm => (nsi.has_set q _).mpr (.inr hm)⟩

theorem exists_addPid {nsi : NamespaceInfo} (h : nsi.Has ns) (pid : Int) :
    ∃ nsi', nsi.addPid ns pid = .ok nsi' := by
  obtain ⟨a, ha⟩ := Option.isSome_iff_exists.mp h
  exact ⟨_, by rw [NamespaceInfo.addPid, ha]⟩

/-- The entries that there were stay, also those of the namespaces whose ancestors are being
entered. -/
theorem exists_addNamespace_neg (P : PidHierarchy H root)
    (hopts : opts.showPidnsHierarchy = true) (hns : H.nsGetNstype ns = .ok .pid)
    (nsi : NamespaceInfo) :
    ∃ nsi', NamespacesOf.addNamespace H opts nsi ns (-1) = .ok nsi' ∧ nsi'.Has ns ∧
      ∀ m, nsi.Has m → nsi'.Has m := by
  induction ns using H.wf_parent.induction generalizing nsi with
  | _ ns ih =>
    rw [NamespacesOf.addNamespace_neg, addNamespaceToList_pid hopts hns]
    split
    · rename_i h
      exact ⟨nsi, rfl, h, fun _ => id⟩
    · have hset m := nsi.has_set (m := m) ns ⟨.pid, [], [], 0⟩
      cases hp : H.nsGetParent ns with
      | error e =>
        obtain rfl := P.error ns e hns hp
        exact ⟨_, rfl, (hset ns).mpr (.inl rfl), fun m hm => (hset m).mpr (.inr hm)⟩
      | ok p =>
        obtain ⟨nsi₁, h₁, hp₁, hall₁⟩ := ih p hp (P.parent ns p hns hp)
          (nsi.set ns ⟨.pid, [], [], 0⟩)
        obtain ⟨nsi₂, h₂, hall₂⟩ := exists_addChild hp₁ ns
        refine ⟨nsi₂, ?_, hall₂ _ (hall₁ _ ((hset ns).mpr (.inl rfl))), fun m hm => ?_⟩
        · simp only [h₁]
          exact h₂
        · exact hall₂ m (hall₁ m ((hset m).mpr (.inr hm)))

theorem exists_addNamespaces (P : PidHierarchy H root)
    (hopts : opts.showPidnsHierarchy = true) {calls : List (NamespaceID × Int)}
    (hcalls : ∀ c ∈ calls, H.nsGetNstype c.1 = .ok .pid) (nsi : NamespaceInfo) :
    ∃ nsi', NamespacesOf.addNamespaces H opts nsi calls = .ok nsi' := by
  induction calls generalizing nsi with
  | nil => exact ⟨nsi, rfl⟩
  | cons c calls ih =>
    obtain ⟨nsi₁, h₁, hc, -⟩ := exists_addNamespace_neg P hopts (hcalls c List.mem_cons_self) nsi
    obtain ⟨nsi₂, h₂⟩ : ∃ nsi₂, NamespacesOf.addNamespace H opts nsi c.1 c.2 = .ok nsi₂ := by
      rw [NamespacesOf.addNamespace_eq_bind nsi c.1 c.2, h₁]
      simp only [Except.bind]
      split
      · exact exists_addPid hc c.2
      · exact ⟨nsi₁, rfl⟩
    rw [NamespacesOf.addNamespaces, h₂]
    exact ih (fun d hd => hcalls d (List.mem_cons_of_mem c hd)) nsi₂

/-- For every sequence of processes in the namespaces of a PID hierarchy both programs come to an
end, and they have recorded the same hierarchy. -/
theorem addNamespaces_same (P : PidHierarchy H root) (hopts : opts.showPidnsHierarchy = true)
    (calls : List (NamespaceID × Int)) (hcalls : ∀ c ∈ calls, H.nsGetNstype c.1 = .ok .pid) :
    ∃ nsi g, NamespacesOf.addNamespaces H opts .empty calls = .ok nsi ∧
      addNamespaces H .empty calls = .ok g ∧ Same nsi g := by
  obtain ⟨nsi, hnsi⟩ := exists_addNamespaces P hopts hcalls .empty
  refine ⟨nsi, project nsi, hnsi, ?_, same_project nsi⟩
  rw [← project_empty, addNamespaces_project P hopts hcalls, hnsi]
  rfl

end

/-- The PID namespace 1, a child 2 of it, and children 3 and 4 of 2. -/
def smallPidHierarchy : Hierarchy where
  nsGetNstype ns := if ns = ⟨4, 1⟩ ∨ ns = ⟨4, 2⟩ ∨ ns = ⟨4, 3⟩ ∨ ns = ⟨4, 4⟩ then .ok .pid
    else .error 9
  nsGetOwnerUid _ := .error 22
  nsGetUserns _ := .error EPERM
  nsGetParent ns := if ns = ⟨4, 2⟩ then .ok ⟨4, 1⟩ else if ns = ⟨4, 3⟩ ∨ ns = ⟨4, 4⟩ then .ok ⟨4, 2⟩
    else .error EPERM
  wf_userns := Hierarchy.wf_error EPERM
  wf_parent := by
    refine Subrelation.wf (fun {p ns} h => ?_) (measure fun ns : NamespaceID => ns.inode.toNat).wf
    split at h
    · rename_i h2
      cases h
      subst h2
      exact (by decide : (1 : UInt64).toNat < (2 : UInt64).toNat)
    · split at h
      · rename_i h34
        cases h
        rcases h34 with rfl | rfl
        · exact (by decide : (2 : UInt64).toNat < (3 : UInt64).toNat)
        · exact (by decide : (2 : UInt64).toNat < (4 : UInt64).toNat)
      · cases h

theorem smallPidHierarchy_pidHierarchy : PidHierarchy smallPidHierarchy ⟨4, 1⟩ := by
  have hpid : ∀ ns, smallPidHierarchy.nsGetNstype ns = .ok .pid →
      ns = ⟨4, 1⟩ ∨ ns = ⟨4, 2⟩ ∨ ns = ⟨4, 3⟩ ∨ ns = ⟨4, 4⟩ := by
    intro ns h
    by_contra hne
    simp [smallPidHierarchy, hne] at h
  refine ⟨rfl, ?_, ?_, ?_⟩
  · intro ns p hns hp
    rcases hpid ns hns with rfl | rfl | rfl | rfl <;> cases hp <;> rfl
  · intro ns e hns he
    rcases hpid ns hns with rfl | rfl | rfl | rfl <;> cases he
    rfl
  · intro ns hns
    rcases hpid ns hns with rfl | rfl | rfl | rfl
    · exact ⟨fun _ => rfl, fun _ => rfl⟩
    all_goals refine ⟨fun h => ?_, fun h => ?_⟩ <;> cases h

/-- A process in namespace 4 is found first, then one in the topmost namespace and two in 3. -/
theorem addNamespaces_same_small : ∃ nsi g,
    NamespacesOf.addNamespaces smallPidHierarchy ⟨true, 0⟩ .empty
      [(⟨4, 4⟩, 10), (⟨4, 1⟩, 1), (⟨4, 3⟩, 30), (⟨4, 3⟩, 12)] = .ok nsi ∧
    addNamespaces smallPidHierarchy .empty
      [(⟨4, 4⟩, 10), (⟨4, 1⟩, 1), (⟨4, 3⟩, 30), (⟨4, 3⟩, 12)] = .ok g ∧ Same nsi g := by
  refine addNamespaces_same smallPidHierarchy_pidHierarchy rfl _ fun c hc => ?_
  simp only [List.mem_cons, List.not_mem_nil, or_false] at hc
  rcases hc with rfl | rfl | rfl | rfl <;> rfl

end Tlpi.PidNamespaces
