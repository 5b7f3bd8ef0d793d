import ApproxQuery.Proofs.Plan.Checking

/-! What the search for an order says about cycles. It finds every node from which no path leads to a cycle, and no
other; so it succeeds on plans without cycles, and otherwise counts the nodes that it could not place. -/
namespace ApproxQuery.Plan

open Relation

variable {p : Plan} {id d : NodeId} {found : List NodeId}

/-- A node on a cycle, or one that reads, directly or through others, a node on a cycle. -/
def Entangled (p : Plan) (id : NodeId) : Prop := ∃ c, ReflTransGen p.Edge id c ∧ TransGen p.Edge c c

instance : DecidablePred p.Entangled := fun id =>
  decidable_of_iff (∃ c ∈ id :: p.descendants id, c ∈ p.descendants c) <| by
    simp only [List.mem_cons, mem_descendants, Entangled, reflTransGen_iff_eq_or_transGen]

/-- The entangled nodes of a plan. -/
def entangled (p : Plan) : List NodeId := p.nodeIds.filter fun id => p.Entangled id

theorem mem_entangled : id ∈ p.entangled ↔ id ∈ p.nodeIds ∧ p.Entangled id := by
  rw [entangled, List.mem_filter, decide_eq_true_eq]

theorem Entangled.of_edge (edge : p.Edge id d) (below : p.Entangled d) : p.Entangled id := by
  obtain ⟨c, path, loop⟩ := below
  exact ⟨c, path.head edge, loop⟩

theorem Entangled.of_loop (loop : TransGen p.Edge id id) : p.Entangled id := ⟨id, .refl, loop⟩

/-- What is entangled reads something that is. -/
theorem Entangled.next (entangled : p.Entangled id) : ∃ d, p.Edge id d ∧ p.Entangled d := by
  obtain ⟨c, path, loop⟩ := entangled
  rcases path.cases_head with same | ⟨d, edge, below⟩
  · obtain ⟨d, edge, back⟩ := TransGen.head'_iff.mp loop
    exact ⟨d, same ▸ edge, c, back, loop⟩
  · exact ⟨d, edge, c, below, loop⟩

namespace Finds

/-- What a node reads stands before it: not behind, and the node does not read itself. -/
theorem behind (finds : p.Finds found) {before after : List NodeId} (split : found = before ++ id :: after)
    (edge : p.Edge id d) : d ∈ before := by
  have own : id ∈ found := split ▸ List.mem_append_right _ List.mem_cons_self
  have read : d ∈ found := (finds.mem_iff id (finds.within id own)).mp own d edge
  have sorted := finds.sorted
  rw [split] at sorted
  have apart := (List.pairwise_cons.mp (List.pairwise_append.mp sorted).2.1).1
  rw [split, List.mem_append, List.mem_cons] at read
  rcases read with before | rfl | later
  · exact before
  · exact absurd edge (finds.loopless d own)
  · exact absurd edge (apart d later)

/-- Nothing entangled is found, as it would have to stand behind another such node. -/
theorem not_entangled (finds : p.Finds found) (member : id ∈ found) : ¬ p.Entangled id := by
  obtain ⟨before, after, split⟩ := List.append_of_mem member
  clear member
  induction places : before.length using Nat.strongRecOn generalizing before id after with
  | ind n ih =>
    intro entangled
    obtain ⟨d, edge, below⟩ := entangled.next
    obtain ⟨front, rest, inFront⟩ := List.append_of_mem (finds.behind split edge)
    have shorter : front.length < n := by
      rw [← places, inFront, List.length_append, List.length_cons]
      omega
    have further : found = front ++ d :: (rest ++ id :: after) := by
      rw [split, inFront, List.append_assoc, List.cons_append]
    exact ih front.length shorter front (rest ++ id :: after) further rfl below

/-- Every other node is found, after all that is reached from it. -/
theorem mem_of_not_entangled (finds : p.Finds found) (linked : p.Linked) (live : id ∈ p.nodeIds)
    (clear : ¬ p.Entangled id) : id ∈ found := by
  induction reached : (p.descendants id).length using Nat.strongRecOn generalizing id with
  | ind n ih =>
    apply (finds.mem_iff id live).mpr
    intro d edge
    have clear' : ¬ p.Entangled d := fun below => clear (below.of_edge edge)
    have fewer : (p.descendants d).length < n :=
      reached ▸ length_descendants_lt (fun loop => clear' (.of_loop loop)) edge
    exact ih _ fewer (linked.mem_nodeIds.mpr (linked.live_of_edge edge)) clear' rfl

/-- The nodes are those that are found and those that are entangled. -/
theorem length_add (finds : p.Finds found) (linked : p.Linked) : found.length + p.entangled.length = p.size := by
  have clear : found.Perm (p.nodeIds.filter fun id => !decide (p.Entangled id)) := by
    refine (List.perm_ext_iff_of_nodup finds.once (linked.ordered.nodup_keys.filter _)).mpr fun id => ?_
    rw [List.mem_filter, Bool.not_eq_true', decide_eq_false_iff_not]
    constructor
    · exact fun member => ⟨finds.within id member, finds.not_entangled member⟩
    · exact fun ⟨live, clear⟩ => finds.mem_of_not_entangled linked live clear
  have parted := List.length_eq_length_filter_add (l := p.nodeIds) fun id => decide (p.Entangled id)
  rw [clear.length_eq, ← p.length_nodeIds, parted, Nat.add_comm]
  rfl

end Finds

/-- The search for an order fails with the number of entangled nodes, unless there are none. -/
theorem Paired.topologicalOrder_eq_ite (paired : p.Paired) : ∃ found, p.Finds found ∧ p.topologicalOrder
    = if p.entangled = [] then .ok found else .error (.invalid (.cycle p.entangled.length)) := by
  obtain ⟨found, ran, finds⟩ := paired.finds
  obtain ⟨_, same, few, outcome⟩ := paired.orderFrom_ok
  cases ran.symm.trans same
  have whole := finds.length_add paired.toLinked
  have lacks : p.size - found.length = p.entangled.length := by omega
  have complete : found.length = p.size ↔ p.entangled = [] := by
    rw [← List.length_eq_zero_iff]
    omega
  refine ⟨found, finds, ?_⟩
  simp only [outcome, lacks, complete]

/-- A plan whose edges are recorded at both ends, each once, has an order just when there is no cycle. An order has
every node once, behind all that the node reads. Where there is a cycle, the error counts the nodes that are on one
or read one, directly or through others. -/
theorem Paired.topologicalOrder_sorts (paired : p.Paired) :
    ((∃ order, p.topologicalOrder = .ok order) ↔ ∀ id, ¬ TransGen p.Edge id id)
      ∧ (∀ order, p.topologicalOrder = .ok order → order.Perm p.nodeIds
        ∧ ∀ before id after, order = before ++ id :: after → ∀ d, p.Edge id d → d ∈ before)
      ∧ ∀ id, TransGen p.Edge id id →
        p.topologicalOrder = .error (.invalid (.cycle p.entangled.length)) := by
  obtain ⟨found, finds, outcome⟩ := paired.topologicalOrder_eq_ite
  have fails {id} (loop : TransGen p.Edge id id) : p.entangled ≠ [] := by
    obtain ⟨_, ⟨n, there, _⟩, _⟩ := TransGen.head'_iff.mp loop
    have live : id ∈ p.nodeIds := paired.mem_nodeIds.mpr ⟨n, there⟩
    exact List.ne_nil_of_mem (mem_entangled.mpr ⟨live, .of_loop loop⟩)
  refine ⟨⟨?_, ?_⟩, ?_, ?_⟩
  · rintro ⟨order, ordered⟩ id loop
    rw [outcome, if_neg (fails loop)] at ordered
    cases ordered
  · intro loopless
    have none : p.entangled = [] := by simp [entangled, Entangled, loopless]
    exact ⟨found, outcome.trans (if_pos none)⟩
  · intro order ordered
    rw [outcome] at ordered
    split at ordered
    · next none =>
      cases ordered
      have whole := finds.length_add paired.toLinked
      rw [none, List.length_nil, Nat.add_zero, ← p.length_nodeIds] at whole
      refine ⟨?_, fun before id after split d edge => finds.behind split edge⟩
      exact (List.subperm_of_subset finds.once finds.within).perm_of_length_le (Nat.le_of_eq whole.symm)
    · cases ordered
  · exact fun id loop => outcome.trans (if_neg (fails loop))

section Sample

/-- A root that reads a cycle of two nodes, and two more nodes that do not. -/
def tangledPlan : Plan := samplePlan [sampleNode 0 .projection [] [1, 3] [] [],
  sampleNode 1 .aggregate [0, 2] [2] [] [], sampleNode 2 .aggregate [1] [1, 4] [] [],
  sampleNode 3 .aggregate [0] [4] [] [], sampleNode 4 .aggregate [2, 3] [] [] []]

/-- It is enough to look at the nodes one by one. -/
theorem paired_of_entries (ordered : (p.nodes.entries.map Prod.fst).Pairwise (· < ·))
    (each : ∀ entry ∈ p.nodes.entries,
      (entry.2.id = entry.1 ∧ entry.2.parents.Nodup ∧ entry.2.dependents.Nodup)
        ∧ (∀ parent ∈ entry.2.parents, ∃ m ∈ p.node? parent, entry.1 ∈ m.dependents)
        ∧ ∀ d ∈ entry.2.dependents, ∃ m ∈ p.node? d, entry.1 ∈ m.parents) : p.Paired := by
  have entry {id n} (found : p.node? id = some n) := each _ (AscendingMap.mem_entries_of_find? found)
  exact {
    ordered := List.pairwise_map.mp ordered
    named := fun found => (entry found).1.1
    parents := fun found => (entry found).1.2.1
    upwards := fun found member => (entry found).2.1 _ member
    downwards := fun found member => (entry found).2.2 _ member
    dependents := fun found => (entry found).1.2.2 }

/-- With the cycle the error counts the root and the cycle; a plan that shares a node has an order. -/
theorem tangledPlan_counts : (tangledPlan.Paired ∧ TransGen tangledPlan.Edge ⟨1⟩ ⟨1⟩
      ∧ tangledPlan.entangled = [⟨0⟩, ⟨1⟩, ⟨2⟩]
      ∧ tangledPlan.topologicalOrder = .error (.invalid (.cycle 3)))
    ∧ sharedPlan.Paired ∧ (∀ id, ¬ TransGen sharedPlan.Edge id id)
      ∧ sharedPlan.topologicalOrder = .ok [⟨3⟩, ⟨4⟩, ⟨1⟩, ⟨2⟩, ⟨0⟩]
      ∧ [⟨3⟩, ⟨4⟩, ⟨1⟩, ⟨2⟩, ⟨0⟩].Perm sharedPlan.nodeIds := by
  have tangled : tangledPlan.Paired := paired_of_entries (by decide +kernel) (by decide +kernel)
  have shared : sharedPlan.Paired := paired_of_entries (by decide +kernel) (by decide +kernel)
  have loop : TransGen tangledPlan.Edge ⟨1⟩ ⟨1⟩ := mem_descendants.mp (by decide +kernel)
  have entangled : tangledPlan.entangled = [⟨0⟩, ⟨1⟩, ⟨2⟩] := by decide +kernel
  have ordered : sharedPlan.topologicalOrder = .ok [⟨3⟩, ⟨4⟩, ⟨1⟩, ⟨2⟩, ⟨0⟩] := rfl
  obtain ⟨_, _, fails⟩ := tangled.topologicalOrder_sorts
  obtain ⟨iff, sorts, _⟩ := shared.topologicalOrder_sorts
  have count := fails ⟨1⟩ loop
  rw [entangled] at count
  exact ⟨⟨tangled, loop, entangled, count⟩, shared, iff.mp ⟨_, ordered⟩, ordered, (sorts _ ordered).1⟩

end Sample

end ApproxQuery.Plan
