import ApproxQuery.Proofs.Plan.Checking

/-! What the check of a plan accepts. A plan with a root passes if and only if its edges are recorded at
both ends and form no loop, the root reaches every node, and each node holds placeholders and records for its
dependents and for no others. -/
namespace ApproxQuery

/-- A node has an entry for a dependent that is not empty. -/
def Node.HasEntry (n : Node) (d : NodeId) : Prop :=
  (∃ refs, (d, refs) ∈ n.tables.entries ∧ refs ≠ []) ∨ ∃ slots, (d, slots) ∈ n.filters.entries ∧ slots ≠ []

theorem Node.mem_recordedDependents {n : Node} {d : NodeId} : d ∈ n.recordedDependents ↔ n.HasEntry d := by
  simp [recordedDependents, HasEntry, mem_ascending]

namespace Plan

open Relation

/-- What makes a plan with a root well formed, however it is checked. -/
structure WellFormed (p : Plan) (root : NodeId) : Prop where
  top : ∃ n, p.node? root = some n ∧ n.parents = []
  owned : ∀ {id n}, p.node? id = some n → id ≠ root → n.parents ≠ []
  upwards : ∀ {id n parent}, p.node? id = some n → parent ∈ n.parents →
    ∃ m, p.node? parent = some m ∧ id ∈ m.dependents
  downwards : ∀ {id n d}, p.node? id = some n → d ∈ n.dependents →
    ∃ m, p.node? d = some m ∧ id ∈ m.parents
  loopless : ∀ id, ¬ TransGen p.Edge id id
  reached : ∀ {id n}, p.node? id = some n → ReflTransGen p.Edge root id
  placed : ∀ {id n}, p.node? id = some n →
    ∀ d, d ∈ n.query.placeholders.map PlaceholderRef.node ↔ d ∈ n.dependents
  recorded : ∀ {id n}, p.node? id = some n → ∀ d, n.HasEntry d ↔ d ∈ n.dependents
  unshared : ∀ {a b n m}, p.node? a = some n → p.node? b = some m → n.scratch = m.scratch → a = b

variable {p : Plan} {root : NodeId}

/-- No two nodes share a scratch table if none is listed twice. -/
theorem Stored.nodup_scratch (stored : p.Stored) : (p.nodeList.map Node.scratch).Nodup
    ↔ ∀ {a b n m}, p.node? a = some n → p.node? b = some m → n.scratch = m.scratch → a = b := by
  constructor
  · intro distinct a b n m found there same
    have listed {id : NodeId} {n : Node} (found : p.node? id = some n) : n ∈ p.nodeList :=
      stored.mem_nodeList.mpr ((stored.named found).symm ▸ found)
    rw [← stored.named found, ← stored.named there]
    exact congrArg Node.id (List.inj_on_of_nodup_map distinct (listed found) (listed there) same)
  · intro unshared
    refine List.Nodup.map_on (fun n member m member' same => ?_) ?_
    · have found := stored.mem_nodeList.mp member
      have there := stored.mem_nodeList.mp member'
      rw [unshared found there same] at found
      exact Option.some.inj (found.symm.trans there)
    · have ids : (p.nodeList.map Node.id).Nodup := stored.map_id_nodeList ▸ stored.ordered.nodup_keys
      exact ids.of_map

/-- Nothing leads to a node without parents. -/
theorem Linked.not_path_of_parents (linked : p.Linked) {n : Node} (found : p.node? root = some n)
    (none : n.parents = []) (id : NodeId) : ¬ TransGen p.Edge id root := by
  intro path
  obtain ⟨up, _, edge⟩ := TransGen.tail'_iff.mp path
  have parent := (linked.mem_parents_iff found).mpr edge
  rw [none] at parent
  cases parent

/-- The root and what it reaches are nodes of the plan, each counted once. -/
theorem Linked.descendants_subperm (linked : p.Linked) {n : Node} (found : p.node? root = some n)
    (none : n.parents = []) : (root :: p.descendants root).Subperm p.nodeIds := by
  have once : (root :: p.descendants root).Nodup := List.nodup_cons.mpr
    ⟨mt mem_descendants.mp (linked.not_path_of_parents found none root), p.nodup_descendants root⟩
  refine List.subperm_of_subset once (List.cons_subset.mpr ⟨linked.mem_nodeIds.mpr ⟨n, found⟩, ?_⟩)
  intro id member
  obtain ⟨up, _, edge⟩ := TransGen.tail'_iff.mp (mem_descendants.mp member)
  exact linked.mem_nodeIds.mpr (linked.live_of_edge edge)

/-- All nodes but the root are reached from it if they are as many as are reached. -/
theorem Linked.reached_iff (linked : p.Linked) {n : Node} (found : p.node? root = some n)
    (none : n.parents = []) : (p.descendants root).length + 1 = p.size
      ↔ ∀ {id m}, p.node? id = some m → ReflTransGen p.Edge root id := by
  have within := linked.descendants_subperm found none
  have reaches {id : NodeId} : id ∈ root :: p.descendants root ↔ ReflTransGen p.Edge root id := by
    rw [List.mem_cons, mem_descendants, reflTransGen_iff_eq_or_transGen]
  rw [← p.length_nodeIds, ← List.length_cons]
  constructor
  · intro whole id m there
    have all := within.perm_of_length_le (Nat.le_of_eq whole.symm)
    exact reaches.mp (all.mem_iff.mpr (linked.mem_nodeIds.mpr ⟨m, there⟩))
  · intro reached
    refine Nat.le_antisymm within.length_le (List.subperm_of_subset linked.ordered.nodup_keys ?_).length_le
    intro id member
    obtain ⟨m, there⟩ := linked.mem_nodeIds.mp member
    exact reaches.mpr (reached there)

/-- What is well formed passes the check, if no edge is listed twice. -/
theorem WellFormed.check_eq_ok (wellFormed : p.WellFormed root) (paired : p.Paired) (rooted : p.root = some root) :
    p.check = .ok () := by
  obtain ⟨n, found, none⟩ := wellFormed.top
  obtain ⟨order, ordered, _⟩ := topologicalOrder_ok paired (founded_of_loopless wellFormed.loopless)
  refine (check_eq_ok_iff rooted).mpr ⟨⟨n, found, none⟩, fun m member => ?_,
    paired.nodup_scratch.mpr wellFormed.unshared, ⟨order, ordered⟩,
    (paired.reached_iff found none).mpr wellFormed.reached⟩
  have there := paired.mem_nodeList.mp member
  exact {
    owned := or_iff_not_imp_left.mpr (wellFormed.owned there)
    downwards := fun _ => wellFormed.downwards there
    upwards := fun _ => wellFormed.upwards there
    placed := ascending_eq_iff.mpr (wellFormed.placed there)
    recorded := ascending_eq_iff.mpr fun d =>
      mem_ascending.symm.trans (Node.mem_recordedDependents.trans (wellFormed.recorded there d)) }

/-- What passes the check is well formed. -/
theorem Stored.wellFormed (stored : p.Stored) (rooted : p.root = some root) (checked : p.check = .ok ()) :
    p.WellFormed root := by
  obtain ⟨⟨top, found, none⟩, accepts, distinct, ⟨order, ordered⟩, whole⟩ := (check_eq_ok_iff rooted).mp checked
  have linked := stored.linked accepts
  have accepted {id n} (found : p.node? id = some n) : p.Accepts root n :=
    accepts n (stored.mem_nodeList.mpr ((stored.named found).symm ▸ found))
  obtain ⟨_, founded, _⟩ := linked.of_topologicalOrder ordered
  exact {
    top := ⟨top, found, none⟩
    owned := fun found different =>
      (accepted found).owned.resolve_left fun same => different ((stored.named found).symm.trans same)
    upwards := linked.upwards
    downwards := linked.downwards
    loopless := not_path_self founded
    reached := (linked.reached_iff found none).mp whole
    placed := fun found => ascending_eq_iff.mp (accepted found).placed
    recorded := fun found d => by
      rw [← Node.mem_recordedDependents, (accepted found).recorded, mem_ascending]
    unshared := stored.nodup_scratch.mp distinct }

/-- A plan that lists no edge twice passes the check if and only if it is empty and not built or well
formed. No number that a message of the check or of the search for an order gives is taken from a smaller
one: neither is reached with more nodes counted than there are. -/
theorem check_iff_wellFormed (stored : p.Stored) (once : ∀ {id n}, p.node? id = some n → n.dependents.Nodup) :
    (p.check = .ok () ↔ p.root = none ∧ p.nodes.isEmpty = true ∨ ∃ root, p.root = some root ∧ p.WellFormed root)
      ∧ ∀ root used, (∃ n, p.node? root = some n ∧ n.parents = []) →
        p.nodeList.foldlM (p.checkNode root) [] = .ok used →
        (∃ found, p.orderFrom (p.rounds * p.rounds) p.pending [] = .ok found ∧ found.length ≤ p.size
          ∧ p.topologicalOrder = if found.length = p.size then .ok found
            else .error (.invalid (.cycle (p.size - found.length))))
          ∧ (p.descendants root).length + 1 ≤ p.size := by
  refine ⟨?_, fun root used top passed => ?_⟩
  · cases rooted : p.root with
    | none =>
      have checks : p.check = require p.nodes.isEmpty .noRoot := by rw [check, rooted]
      simp [checks, require_eq_ok]
    | some root =>
      constructor
      · exact fun checked => .inr ⟨root, rfl, stored.wellFormed rooted checked⟩
      · rintro (⟨⟨⟩, _⟩ | ⟨_, ⟨⟩, wellFormed⟩)
        have paired : p.Paired :=
          { stored with upwards := wellFormed.upwards, downwards := wellFormed.downwards, dependents := once }
        exact wellFormed.check_eq_ok paired rooted
  · obtain ⟨n, found, none⟩ := top
    obtain ⟨accepts, _⟩ := checkNodes_eq_ok.mp ⟨used, passed⟩
    have linked := stored.linked accepts
    refine ⟨linked.orderFrom_ok, ?_⟩
    rw [← p.length_nodeIds]
    exact (linked.descendants_subperm found none).length_le

section Sample

theorem sharedPlan_wellFormed : sharedPlan.WellFormed ⟨0⟩ := by
  have once : ∀ entry ∈ sharedPlan.nodes.entries, entry.2.dependents.Nodup := by decide +kernel
  obtain ⟨accepted, _⟩ := check_iff_wellFormed sharedPlan_stored fun found =>
    once _ (AscendingMap.mem_entries_of_find? found)
  rcases accepted.mp sharedPlan_checked with ⟨unbuilt, _⟩ | ⟨_, rooted, wellFormed⟩
  · cases unbuilt
  · cases rooted
    exact wellFormed

end Sample

end Plan

end ApproxQuery
