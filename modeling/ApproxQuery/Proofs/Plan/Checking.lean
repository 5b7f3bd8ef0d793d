import ApproxQuery.Plan.Invariant
import ApproxQuery.Proofs.Answers
import ApproxQuery.Proofs.Plan.Order

/-! What the check of a plan asks for, one requirement at a time. A plan that passes it has its edges
recorded at both ends, and no path of it is endless. -/
namespace ApproxQuery.Plan

variable {p : Plan} {n : Node} {id root : NodeId}

theorem require_eq_ok {condition : Bool} {defect : Defect} :
    require condition defect = .ok () ↔ condition = true := by
  cases condition with
  | true => exact iff_of_true rfl rfl
  | false => exact iff_of_false nofun nofun

theorem checkDependent_eq_ok {d : NodeId} :
    p.checkDependent n d = .ok () ↔ ∃ m, p.node? d = some m ∧ n.id ∈ m.parents := by
  simp only [checkDependent, bind_eq_ok, getNode_eq_ok, require_eq_ok, List.contains_iff_mem]

theorem checkParent_eq_ok {parent : NodeId} :
    p.checkParent n parent = .ok () ↔ ∃ m, p.node? parent = some m ∧ n.id ∈ m.dependents := by
  simp only [checkParent, bind_eq_ok, getNode_eq_ok, require_eq_ok, List.contains_iff_mem]

/-- What is asked of one node, apart from its scratch table. -/
structure Accepts (p : Plan) (root : NodeId) (n : Node) : Prop where
  owned : n.id = root ∨ n.parents ≠ []
  downwards : ∀ d ∈ n.dependents, ∃ m, p.node? d = some m ∧ n.id ∈ m.parents
  upwards : ∀ parent ∈ n.parents, ∃ m, p.node? parent = some m ∧ n.id ∈ m.dependents
  placed : ascending (n.query.placeholders.map PlaceholderRef.node) = ascending n.dependents
  recorded : n.recordedDependents = ascending n.dependents

theorem checkNode_eq_ok {used all : List TableName} : p.checkNode root used n = .ok all
    ↔ p.Accepts root n ∧ n.scratch ∉ used ∧ n.scratch :: used = all := by
  unfold checkNode
  simp only [then_eq_ok, require_eq_ok, forM_eq_ok, checkDependent_eq_ok, checkParent_eq_ok,
    Bool.or_eq_true, decide_eq_true_eq, Bool.not_eq_true', ← Bool.not_eq_true, List.contains_iff_mem,
    List.isEmpty_iff]
  constructor
  · rintro ⟨owned, downwards, upwards, placed, recorded, unshared, ⟨⟩⟩
    exact ⟨⟨owned, downwards, upwards, placed, recorded⟩, unshared, rfl⟩
  · rintro ⟨⟨owned, downwards, upwards, placed, recorded⟩, unshared, rfl⟩
    exact ⟨owned, downwards, upwards, placed, recorded, unshared, rfl⟩

/-- Of all nodes together it is asked that no scratch table is used twice. -/
theorem checkNodes_eq_ok {nodes : List Node} {used : List TableName} :
    (∃ all, nodes.foldlM (p.checkNode root) used = .ok all) ↔ (∀ n ∈ nodes, p.Accepts root n)
      ∧ (nodes.map Node.scratch).Nodup ∧ ∀ n ∈ nodes, n.scratch ∉ used := by
  induction nodes generalizing used with
  | nil => exact iff_of_true ⟨used, rfl⟩ ⟨nofun, List.nodup_nil, nofun⟩
  | cons n rest ih =>
    have step : (∃ all, (n :: rest).foldlM (p.checkNode root) used = .ok all) ↔ p.Accepts root n
        ∧ n.scratch ∉ used ∧ ∃ all, rest.foldlM (p.checkNode root) (n.scratch :: used) = .ok all := by
      simp only [List.foldlM_cons, bind_eq_ok, checkNode_eq_ok]
      constructor
      · rintro ⟨all, _, ⟨accepts, unshared, rfl⟩, later⟩
        exact ⟨accepts, unshared, all, later⟩
      · rintro ⟨accepts, unshared, all, later⟩
        exact ⟨all, _, ⟨accepts, unshared, rfl⟩, later⟩
    rw [step, ih, List.map_cons, List.nodup_cons, List.forall_mem_cons, List.forall_mem_cons]
    constructor
    · rintro ⟨accepts, unshared, each, distinct, unused⟩
      refine ⟨⟨accepts, each⟩, ⟨fun shared => ?_, distinct⟩, unshared, fun m member used => ?_⟩
      · obtain ⟨m, member, same⟩ := List.mem_map.mp shared
        exact unused m member (same ▸ List.mem_cons_self)
      · exact unused m member (List.mem_cons_of_mem _ used)
    · rintro ⟨⟨accepts, each⟩, ⟨own, distinct⟩, unshared, unused⟩
      refine ⟨accepts, unshared, each, distinct, fun m member used => ?_⟩
      rcases List.mem_cons.mp used with same | before
      · exact own (same ▸ List.mem_map_of_mem member)
      · exact unused m member before

private theorem discard_eq_ok {α : Type} {act : Except PlanError α} :
    discard act = .ok () ↔ ∃ a, act = .ok a := by
  cases act with
  | error e => exact iff_of_false nofun fun ⟨_, same⟩ => nomatch same
  | ok a => exact iff_of_true rfl ⟨a, rfl⟩

/-- What is asked of a plan with a root. -/
theorem check_eq_ok_iff (rooted : p.root = some root) : p.check = .ok ()
    ↔ (∃ n, p.node? root = some n ∧ n.parents = []) ∧ (∀ n ∈ p.nodeList, p.Accepts root n)
      ∧ (p.nodeList.map Node.scratch).Nodup ∧ (∃ order, p.topologicalOrder = .ok order)
      ∧ (p.descendants root).length + 1 = p.size := by
  unfold check
  rw [rooted]
  dsimp only
  rw [bind_eq_ok]
  simp only [then_eq_ok, getNode_eq_ok, require_eq_ok, discard_eq_ok, checkNodes_eq_ok, List.isEmpty_iff,
    decide_eq_true_eq]
  constructor
  · rintro ⟨n, found, rootless, ⟨accepts, distinct, _⟩, ordered, whole⟩
    exact ⟨⟨n, found, rootless⟩, accepts, distinct, ordered, whole⟩
  · rintro ⟨⟨n, found, rootless⟩, accepts, distinct, ordered, whole⟩
    exact ⟨n, found, rootless, ⟨accepts, distinct, fun _ _ => List.not_mem_nil⟩, ordered, whole⟩

/-- What is asked of the nodes one by one says that the edges are recorded at both ends. -/
theorem Stored.linked (stored : p.Stored) (accepts : ∀ n ∈ p.nodeList, p.Accepts root n) : p.Linked := by
  have accepted {id n} (found : p.node? id = some n) : n.id = id ∧ p.Accepts root n := by
    have same := stored.named found
    subst same
    exact ⟨rfl, accepts n (stored.mem_nodeList.mpr found)⟩
  refine { stored with upwards := fun found member => ?_, downwards := fun found member => ?_ }
  · obtain ⟨same, accepts⟩ := accepted found
    exact same ▸ accepts.upwards _ member
  · obtain ⟨same, accepts⟩ := accepted found
    exact same ▸ accepts.downwards _ member

/-- A plan that passes has its edges recorded at both ends, each once, and no endless path. Its root has
no parents. That a node names no parent twice is how plans hold their nodes: the check does not ask it. -/
theorem Stored.of_check (stored : p.Stored) (rooted : p.root = some root) (checked : p.check = .ok ()) :
    p.Paired ∧ (WellFounded fun d id => p.Edge id d) ∧ ∃ n, p.node? root = some n ∧ n.parents = [] := by
  obtain ⟨rootless, accepts, _, ⟨order, ordered⟩, _⟩ := (check_eq_ok_iff rooted).mp checked
  obtain ⟨paired, founded, _⟩ := (stored.linked accepts).of_topologicalOrder ordered
  exact ⟨paired, founded, rootless⟩

section Sample

private def sampleRef (id : Nat) : PlaceholderRef := ⟨⟨id⟩, ⟨"scratch", Decimal.digitText id⟩, "part"⟩

/-- A node that reads others in its from-list, each once. -/
def sampleNode (id : Nat) (kind : NodeKind) (parents reads broadcasts listens : List Nat) : Node where
  id := ⟨id⟩
  kind := kind
  query := { (default : Query) with fromList := reads.map fun d => .placeholder (sampleRef d) }
  parents := parents.map NodeId.mk
  dependents := reads.map NodeId.mk
  tables := ⟨reads.map fun d => (⟨d⟩, [sampleRef d])⟩
  filters := .empty
  broadcasts := broadcasts.map QueueId.mk
  listens := listens.map QueueId.mk
  scratch := ⟨"scratch", Decimal.digitText id⟩

/-- A plan of given nodes, the first of which is the root. -/
def samplePlan (nodes : List Node) : Plan :=
  { unbuilt "scratch" "deadbeef" default with
    root := nodes.head?.map Node.id
    nodes := ⟨nodes.map fun n => (n.id, n)⟩ }

/-- Two aggregates below a projection that both read the last node. -/
def sharedPlan : Plan := samplePlan [sampleNode 0 .projection [] [1, 2] [] [0],
  sampleNode 1 .aggregate [0] [3, 4] [0] [1], sampleNode 2 .aggregate [0] [4] [0] [2],
  sampleNode 3 .aggregate [1] [] [1] [], sampleNode 4 .aggregate [1, 2] [] [1, 2] []]

theorem sharedPlan_stored : sharedPlan.Stored := by
  have entries : ∀ entry ∈ sharedPlan.nodes.entries, entry.2.id = entry.1 ∧ entry.2.parents.Nodup := by
    decide +kernel
  have entry {id n} (found : sharedPlan.node? id = some n) := entries _ (AscendingMap.mem_entries_of_find? found)
  have ordered : (sharedPlan.nodes.entries.map Prod.fst).Pairwise (· < ·) := by decide +kernel
  exact ⟨List.pairwise_map.mp ordered, fun found => (entry found).1, fun found => (entry found).2⟩

theorem sharedPlan_checked : sharedPlan.check = .ok () := rfl

end Sample

end ApproxQuery.Plan
