import ApproxQuery.Plan.Block
import ApproxQuery.Proofs.Plan.Checking
import ApproxQuery.Proofs.Plan.Decomposition
import ApproxQuery.Proofs.Plan.Schema
import Mathlib.Algebra.Ring.Nat

/-! The blocks of a checked plan of any shape, nodes that several others read included: where blocks
start, what a block owns, what it reads from outside, and that no two blocks share a node. -/
namespace ApproxQuery

open Relation

/-- The nodes of a block. -/
def Block.ids (b : Block) : List NodeId := b.root :: b.members

namespace Plan

variable {p : Plan}

/-- The search for aggregates passes a projection to all that it reads. -/
def Passes (p : Plan) (id d : NodeId) : Prop :=
  ∃ n, p.node? id = some n ∧ n.kind = .projection ∧ d ∈ n.dependents

def Aggregates (p : Plan) (id : NodeId) : Prop := ∃ n, p.node? id = some n ∧ n.kind = .aggregate

/-- An aggregate node to which a path leads from the root whose earlier nodes are all projections. -/
def TopAggregate (p : Plan) (id : NodeId) : Prop :=
  (∃ root, p.root = some root ∧ ReflTransGen p.Passes root id) ∧ p.Aggregates id

/-- Nodes below a root all of whose parents are the root or among them. -/
structure Owned (p : Plan) (root : NodeId) (ids : NodeId → Prop) : Prop where
  below : ∀ {id}, ids id → TransGen p.Edge root id
  parents : ∀ {id n parent}, ids id → p.node? id = some n → parent ∈ n.parents → parent = root ∨ ids parent

end Plan

/-- A block that owns all that it can, parents before what they read, and lists what it reads besides. -/
structure Block.Exact (b : Block) (p : Plan) : Prop where
  distinct : b.ids.Nodup
  owned : p.Owned b.root (· ∈ b.members)
  largest : ∀ {ids}, p.Owned b.root ids → ∀ {id}, ids id → id ∈ b.members
  order : b.members.Pairwise fun earlier later => ¬ p.Edge later earlier
  externalOnce : b.external.Nodup
  external : ∀ {d}, d ∈ b.external ↔ d ∉ b.ids ∧ ∃ id ∈ b.ids, p.Edge id d

namespace Plan

variable {p : Plan} {root : NodeId}

theorem Passes.edge {id d : NodeId} : p.Passes id d → p.Edge id d := fun ⟨n, found, _, member⟩ =>
  ⟨n, found, member⟩

section Roots

private theorem aggregates_iff {id : NodeId} {n : Node} (found : p.node? id = some n) :
    p.Aggregates id ↔ n.isAggregate := by
  unfold Aggregates Node.isAggregate
  rw [found]
  cases same : n.kind <;> simp [same]

/-- What is put on the stack when a node is seen. -/
private def pushed (n : Node) : List NodeId :=
  match n.kind with
  | .projection => n.dependents
  | .aggregate => []
  | .progressive _ => []

private theorem mem_pushed {id d : NodeId} {n : Node} (found : p.node? id = some n) :
    d ∈ pushed n ↔ p.Passes id d := by
  have passes : p.Passes id d ↔ n.kind = .projection ∧ d ∈ n.dependents := by
    simp [Passes, found]
  rw [passes, pushed]
  cases n.kind <;> simp

private theorem blockRoots_seen {fuel : Nat} {seen stack : List NodeId} {id : NodeId} (old : id ∈ seen) :
    p.blockRoots (fuel + 1) seen (id :: stack) = p.blockRoots fuel seen stack := by
  rw [blockRoots, if_pos (List.contains_iff_mem.mpr old)]

private theorem blockRoots_fresh {fuel : Nat} {seen stack roots : List NodeId} {id : NodeId} {n : Node}
    (found : p.node? id = some n) (fresh : id ∉ seen)
    (rest : p.blockRoots fuel (id :: seen) (pushed n ++ stack) = .ok roots) :
    p.blockRoots (fuel + 1) seen (id :: stack) = .ok (if n.isAggregate then id :: roots else roots) := by
  rw [pushed] at rest
  rw [blockRoots, if_neg (mt List.contains_iff_mem.mp fresh), getNode_eq found, Node.isAggregate]
  cases same : n.kind with
  | projection =>
    rw [same] at rest
    simp only [bind, Except.bind, same]
    exact rest
  | aggregate =>
    rw [same, List.nil_append] at rest
    simp only [bind, Except.bind, same, rest]
    rfl
  | progressive scramble =>
    rw [same, List.nil_append] at rest
    simp only [bind, Except.bind, same]
    exact rest

/-- What holds between the rounds of the search: nodes on the stack are there, and what a projection
reads was seen with it, unless it still waits. -/
private structure Seeking (p : Plan) (seen stack : List NodeId) : Prop where
  live : ∀ id ∈ stack, ∃ n, p.node? id = some n
  closed : ∀ id ∈ seen, ∀ d, p.Passes id d → d ∈ seen ∨ d ∈ stack

namespace Seeking

variable {seen stack : List NodeId} {top : NodeId}

private theorem drop (inv : Seeking p seen (top :: stack)) (old : top ∈ seen) : Seeking p seen stack where
  live := fun id member => inv.live id (List.mem_cons_of_mem _ member)
  closed := fun id before d pass => by
    rcases inv.closed id before d pass with known | waiting
    · exact .inl known
    · rcases List.mem_cons.mp waiting with rfl | later
      · exact .inl old
      · exact .inr later

private theorem opens (linked : p.Linked) (inv : Seeking p seen (top :: stack)) {n : Node}
    (found : p.node? top = some n) : Seeking p (top :: seen) (pushed n ++ stack) where
  live := fun id member => by
    rcases List.mem_append.mp member with below | later
    · exact linked.live_of_edge ((mem_pushed found).mp below).edge
    · exact inv.live id (List.mem_cons_of_mem _ later)
  closed := fun id member d pass => by
    rw [List.mem_append, mem_pushed found]
    rcases List.mem_cons.mp member with rfl | before
    · exact .inr (.inl pass)
    · rcases inv.closed id before d pass with known | waiting
      · exact .inl (List.mem_cons_of_mem _ known)
      · rcases List.mem_cons.mp waiting with rfl | later
        · exact .inl List.mem_cons_self
        · exact .inr (.inr later)

/-- A way from a seen node to one not yet seen goes by the stack. -/
private theorem leaves (inv : Seeking p seen stack) {a id : NodeId} (path : ReflTransGen p.Passes a id)
    (before : a ∈ seen) (fresh : id ∉ seen) : ∃ s ∈ stack, ReflTransGen p.Passes s id := by
  induction path using ReflTransGen.head_induction_on with
  | refl => exact absurd before fresh
  | @head a b pass rest ih =>
    rcases inv.closed a before b pass with old | waiting
    · exact ih old
    · exact ⟨b, waiting, rest⟩

/-- Without a node seen before, the same nodes are still to be found. -/
private theorem drop_iff (inv : Seeking p seen (top :: stack)) (old : top ∈ seen) {id : NodeId}
    (fresh : id ∉ seen) : (∃ s ∈ stack, ReflTransGen p.Passes s id)
      ↔ ∃ s ∈ top :: stack, ReflTransGen p.Passes s id := by
  constructor
  · rintro ⟨s, member, path⟩
    exact ⟨s, List.mem_cons_of_mem _ member, path⟩
  · rintro ⟨s, member, path⟩
    rcases List.mem_cons.mp member with rfl | later
    · exact (inv.drop old).leaves path old fresh
    · exact ⟨s, later, path⟩

/-- With what a node opens in its place, the same other nodes are still to be found. -/
private theorem open_iff (linked : p.Linked) (inv : Seeking p seen (top :: stack)) {n : Node}
    (found : p.node? top = some n) {id : NodeId} (fresh : id ∉ top :: seen) :
    (∃ s ∈ pushed n ++ stack, ReflTransGen p.Passes s id)
      ↔ ∃ s ∈ top :: stack, ReflTransGen p.Passes s id := by
  constructor
  · rintro ⟨s, member, path⟩
    rcases List.mem_append.mp member with below | later
    · exact ⟨top, List.mem_cons_self, path.head ((mem_pushed found).mp below)⟩
    · exact ⟨s, List.mem_cons_of_mem _ later, path⟩
  · rintro ⟨s, member, path⟩
    rcases List.mem_cons.mp member with rfl | later
    · exact (inv.opens linked found).leaves path List.mem_cons_self fresh
    · exact ⟨s, List.mem_append_right _ later, path⟩

end Seeking

/-- What waits, and the edges from nodes not seen yet. This falls with each round. -/
private def searchEffort (p : Plan) (seen stack : List NodeId) : Nat :=
  stack.length + ((p.nodeList.filter fun n => n.id ∉ seen).map fun n => n.dependents.length).sum

/-- Seeing a node puts no more on the stack than it takes from the nodes not seen. -/
private theorem searchEffort_fresh (stored : p.Stored) {seen : List NodeId} (stack : List NodeId)
    {id : NodeId} {n : Node} (found : p.node? id = some n) (fresh : id ∉ seen) :
    p.searchEffort (id :: seen) (pushed n ++ stack) ≤ p.searchEffort seen stack := by
  classical
  have same : n.id = id := stored.named found
  have ids : (p.nodeList.map Node.id).Nodup := stored.map_id_nodeList ▸ stored.ordered.nodup_keys
  have member : n ∈ p.nodeList.filter fun n => n.id ∉ seen :=
    List.mem_filter.mpr ⟨stored.mem_nodeList.mpr (same ▸ found), by simpa [same] using fresh⟩
  have rest : (p.nodeList.filter fun n => n.id ∉ seen).erase n
      = p.nodeList.filter fun n => n.id ∉ id :: seen := by
    rw [(ids.of_map.filter _).erase_eq_filter, List.filter_filter]
    refine List.filter_congr fun m inPlan => ?_
    have there := stored.mem_nodeList.mp inPlan
    have own : m = n ↔ m.id = id :=
      ⟨fun equal => equal ▸ same, fun equal => Option.some.inj (there.symm.trans (equal ▸ found))⟩
    by_cases equal : m.id = id <;> simp [bne, own, equal]
  have split := ((List.perm_cons_erase member).map fun n => n.dependents.length).sum_eq
  rw [List.map_cons, List.sum_cons, rest] at split
  have few : (pushed n).length ≤ n.dependents.length := by
    unfold pushed
    split <;> simp
  unfold searchEffort
  rw [List.length_append]
  omega

/-- The search finds each aggregate node that projections lead to from the stack, once. -/
private theorem blockRoots_spec (linked : p.Linked) (fuel : Nat) {seen stack : List NodeId}
    (inv : Seeking p seen stack) (enough : p.searchEffort seen stack ≤ fuel) :
    ∃ roots, p.blockRoots fuel seen stack = .ok roots ∧ roots.Nodup ∧ ∀ id, id ∈ roots
      ↔ id ∉ seen ∧ (∃ s ∈ stack, ReflTransGen p.Passes s id) ∧ p.Aggregates id := by
  induction fuel generalizing seen stack with
  | zero =>
    have empty : stack = [] := List.length_eq_zero_iff.mp (by unfold searchEffort at enough; omega)
    exact ⟨[], rfl, List.nodup_nil, fun id => by simp [empty]⟩
  | succ fuel ih =>
    cases stack with
    | nil => exact ⟨[], rfl, List.nodup_nil, fun id => by simp⟩
    | cons top stack =>
      have popped : p.searchEffort seen (top :: stack) = p.searchEffort seen stack + 1 := by
        unfold searchEffort
        rw [List.length_cons]
        omega
      by_cases old : top ∈ seen
      · obtain ⟨roots, found, distinct, exact⟩ := ih (inv.drop old) (by omega)
        refine ⟨roots, (blockRoots_seen old).trans found, distinct, fun id => (exact id).trans ?_⟩
        exact and_congr_right fun fresh => and_congr_left fun _ => inv.drop_iff old fresh
      · obtain ⟨n, there⟩ := inv.live top List.mem_cons_self
        have less := searchEffort_fresh linked.toStored stack there old
        obtain ⟨roots, found, distinct, exact⟩ := ih (inv.opens linked there) (by omega)
        have notAgain : top ∉ roots := fun member => ((exact top).mp member).1 List.mem_cons_self
        refine ⟨_, blockRoots_fresh there old found, ?_, fun id => ?_⟩
        · split
          · exact List.nodup_cons.mpr ⟨notAgain, distinct⟩
          · exact distinct
        · by_cases same : id = top
          · subst same
            have start : ∃ s ∈ id :: stack, ReflTransGen p.Passes s id := ⟨id, List.mem_cons_self, .refl⟩
            rw [and_iff_right old, and_iff_right start, aggregates_iff there]
            split <;> simp [*]
          · have others : id ∈ (if n.isAggregate then top :: roots else roots) ↔ id ∈ roots := by
              split <;> simp [same]
            rw [others, exact id, List.mem_cons, not_or, and_iff_right same]
            refine and_congr_right fun fresh => and_congr_left fun _ => inv.open_iff linked there ?_
            exact fun known => (List.mem_cons.mp known).elim same fresh

/-- Blocks start at the aggregate nodes that projections lead to from the root. -/
private theorem blockRoots_ok (linked : p.Linked) (rooted : p.root = some root)
    (live : ∃ n, p.node? root = some n) : ∃ roots, p.blockRoots (p.rounds + 1) [] [root] = .ok roots
      ∧ roots.Nodup ∧ ∀ id, id ∈ roots ↔ p.TopAggregate id := by
  have start : Seeking p [] [root] :=
    ⟨fun id member => List.mem_singleton.mp member ▸ live, fun _ member => nomatch member⟩
  have enough : p.searchEffort [] [root] ≤ p.rounds + 1 := by
    have fewer : (p.nodeList.map fun n => n.dependents.length).sum
        ≤ (p.nodeList.map fun n => (n.parents ++ n.dependents).length).sum :=
      List.sum_le_sum fun n _ => by rw [List.length_append]; omega
    have all : (p.nodeList.filter fun n => n.id ∉ ([] : List NodeId)) = p.nodeList := by simp
    unfold searchEffort rounds
    rw [all, List.length_singleton, List.length_flatMap]
    omega
  obtain ⟨roots, found, distinct, exact⟩ := blockRoots_spec linked _ start enough
  refine ⟨roots, found, distinct, fun id => (exact id).trans ?_⟩
  simp [TopAggregate, rooted]

end Roots

section Members

/-- Nodes of a list or of a block so far whose readers are among them or in the block so far. -/
private structure Growth (p : Plan) (inBlock ids : List NodeId) (own : NodeId → Prop) : Prop where
  within : ∀ {id}, own id → id ∈ ids ∨ id ∈ inBlock
  readers : ∀ {id reader}, own id → p.Edge reader id → own reader ∨ reader ∈ inBlock

namespace Growth

variable {inBlock rest : List NodeId} {id : NodeId} {own : NodeId → Prop}

private theorem first (growth : p.Growth inBlock (id :: rest) own) (loopless : ¬ p.Edge id id)
    (order : ∀ later ∈ rest, ¬ p.Edge later id) (mine : own id) {reader : NodeId}
    (edge : p.Edge reader id) : reader ∈ inBlock := by
  rcases growth.readers mine edge with among | before
  · rcases growth.within among with listed | before
    · rcases List.mem_cons.mp listed with rfl | later
      · exact absurd edge loopless
      · exact absurd edge (order reader later)
    · exact before
  · exact before

private theorem take (growth : p.Growth inBlock (id :: rest) own) : p.Growth (id :: inBlock) rest own where
  within := fun mine => by
    rcases growth.within mine with listed | before
    · rcases List.mem_cons.mp listed with rfl | later
      · exact .inr List.mem_cons_self
      · exact .inl later
    · exact .inr (List.mem_cons_of_mem _ before)
  readers := fun mine edge => (growth.readers mine edge).imp_right (List.mem_cons_of_mem _)

private theorem skip (growth : p.Growth inBlock (id :: rest) own) (notOwn : ¬ own id) :
    p.Growth inBlock rest own where
  within := fun mine => (growth.within mine).imp_left fun listed =>
    (List.mem_cons.mp listed).resolve_left fun same => notOwn (same.subst mine)
  readers := growth.readers

end Growth

/-- Gathering takes what is read from the block only, and misses none of it, when readers are met
before what they read. -/
private theorem gatherMembers_spec (linked : p.Linked) (loopless : ∀ id, ¬ p.Edge id id)
    {ids : List NodeId} (inBlock : List NodeId) (live : ∀ id ∈ ids, ∃ n, p.node? id = some n)
    (order : ids.Pairwise fun earlier later => ¬ p.Edge later earlier) :
    ∃ members, p.gatherMembers inBlock ids = .ok members ∧ members.Sublist ids
      ∧ (∀ id ∈ members, ∀ reader, p.Edge reader id → reader ∈ inBlock ∨ reader ∈ members)
      ∧ ∀ own, p.Growth inBlock ids own → ∀ id, own id → id ∈ inBlock ∨ id ∈ members := by
  induction ids generalizing inBlock with
  | nil =>
    refine ⟨[], rfl, .slnil, nofun, fun own growth id mine => .inl ?_⟩
    exact (growth.within mine).resolve_left List.not_mem_nil
  | cons id rest ih =>
    obtain ⟨first, orderRest⟩ := List.pairwise_cons.mp order
    obtain ⟨n, found⟩ := live id List.mem_cons_self
    have owned : n.parents.all inBlock.contains = true ↔ ∀ reader, p.Edge reader id → reader ∈ inBlock := by
      simp only [List.all_eq_true, List.contains_iff_mem, linked.mem_parents_iff found]
    have unfolded : p.gatherMembers inBlock (id :: rest) = if n.parents.all inBlock.contains then
        (p.gatherMembers (id :: inBlock) rest >>= fun members => pure (id :: members))
        else p.gatherMembers inBlock rest := by
      rw [gatherMembers, getNode_eq found]
      rfl
    have liveRest (other) (member : other ∈ rest) := live other (List.mem_cons_of_mem _ member)
    rw [unfolded]
    split
    · rename_i inside
      obtain ⟨members, done, sublist, closed, all⟩ := ih (id :: inBlock) liveRest orderRest
      have moved {x} : x ∈ id :: inBlock ∨ x ∈ members → x ∈ inBlock ∨ x ∈ id :: members := by
        simp only [List.mem_cons, or_assoc]
        exact or_left_comm.mp
      refine ⟨id :: members, by rw [done]; rfl, sublist.cons_cons id, fun other member reader edge => ?_,
        fun own growth other mine => moved (all own growth.take other mine)⟩
      rcases List.mem_cons.mp member with rfl | later
      · exact .inl (owned.mp inside reader edge)
      · exact moved (closed other later reader edge)
    · rename_i outside
      obtain ⟨members, done, sublist, closed, all⟩ := ih inBlock liveRest orderRest
      refine ⟨members, done, sublist.cons id, closed, fun own growth => all own (growth.skip fun mine => ?_)⟩
      exact outside (owned.mpr fun reader edge => growth.first (loopless id) first mine edge)

/-- What a set of nodes reads besides itself, each once. -/
private theorem externalOf_spec {inBlock : List NodeId} (live : ∀ id ∈ inBlock, ∃ n, p.node? id = some n) :
    ∃ external, p.externalOf inBlock = .ok external ∧ external.Nodup
      ∧ ∀ d, d ∈ external ↔ d ∉ inBlock ∧ ∃ id ∈ inBlock, p.Edge id d := by
  have done : (inBlock.mapM fun id => return (← p.getNode id).dependents : Except PlanError _)
      = .ok (inBlock.map p.dependentsOf) := by
    refine mapM_eq_ok.mpr (List.forall₂_map_right_iff.mpr (List.forall₂_same.mpr fun id member => ?_))
    obtain ⟨n, found⟩ := live id member
    rw [getNode_eq found, dependentsOf, found]
    rfl
  have reads (d) : d ∈ (inBlock.map p.dependentsOf).flatten ↔ ∃ id ∈ inBlock, p.Edge id d := by
    rw [← List.flatMap_def, List.mem_flatMap]
    simp only [mem_dependentsOf]
  refine ⟨_, by unfold externalOf; rw [done]; rfl, Node.nodup_foldl_addOnce _ List.nodup_nil, fun d => ?_⟩
  rw [Node.mem_foldl_addOnce, List.mem_filter, reads, or_iff_right List.not_mem_nil, and_comm]
  simp

/-- The block at a node is exact. -/
theorem Paired.blockAt_exact (paired : p.Paired) (founded : WellFounded fun d id => p.Edge id d)
    {order : List NodeId} (perm : order.Perm p.nodeIds)
    (sorted : order.Pairwise fun earlier later => ¬ p.Edge earlier later)
    (live : ∃ n, p.node? root = some n) :
    ∃ b, p.blockAt order.reverse root = .ok b ∧ b.root = root ∧ b.Exact p := by
  have below {id} : id ∈ order.reverse.filter (p.descendants root).contains ↔ TransGen p.Edge root id := by
    rw [List.mem_filter, List.mem_reverse, perm.mem_iff, List.contains_iff_mem, mem_descendants]
    refine and_iff_right_of_imp fun path => paired.mem_nodeIds.mpr ?_
    obtain ⟨_, _, edge⟩ := TransGen.tail'_iff.mp path
    exact paired.live_of_edge edge
  have listed {id} (member : id ∈ order.reverse.filter (p.descendants root).contains) :
      ∃ n, p.node? id = some n :=
    paired.mem_nodeIds.mp (perm.mem_iff.mp (List.mem_reverse.mp (List.mem_filter.mp member).1))
  have once : (order.reverse.filter (p.descendants root).contains).Nodup :=
    List.Nodup.filter _ (List.nodup_reverse.mpr (perm.nodup_iff.mpr paired.ordered.nodup_keys))
  have topDown : (order.reverse.filter (p.descendants root).contains).Pairwise
      fun earlier later => ¬ p.Edge later earlier :=
    (List.pairwise_reverse.mpr sorted).filter _
  obtain ⟨members, gathered, sublist, closed, all⟩ := gatherMembers_spec paired.toLinked
    (fun id edge => not_path_self founded id (.single edge)) [root] (fun id => listed) topDown
  have path {id} (member : id ∈ members) : TransGen p.Edge root id := below.mp (sublist.subset member)
  have inside : ∀ id ∈ ascending (root :: members), ∃ n, p.node? id = some n := by
    intro id member
    rcases List.mem_cons.mp (mem_ascending.mp member) with rfl | member
    · exact live
    · exact listed (sublist.subset member)
  obtain ⟨external, outside, externalOnce, exact⟩ := externalOf_spec inside
  refine ⟨⟨root, members, external⟩, ?_, rfl, ?_⟩
  · unfold blockAt
    simp only [gathered, outside, bind, Except.bind]
    rfl
  · constructor
    case distinct => exact List.nodup_cons.mpr ⟨fun member => not_path_self founded root (path member),
        once.sublist sublist⟩
    case owned =>
      refine ⟨path, fun member found parent => ?_⟩
      refine (closed _ member _ (paired.upwards found parent)).imp_left List.mem_singleton.mp
    case largest =>
      intro ids owned id mine
      have growth : p.Growth [root] (order.reverse.filter (p.descendants root).contains) ids :=
        ⟨fun mine => .inl (below.mpr (owned.below mine)), fun {id reader} mine edge => by
          obtain ⟨n, found⟩ := paired.live_of_edge edge
          have parent := (paired.mem_parents_iff found).mpr edge
          exact (owned.parents mine found parent).symm.imp_right List.mem_singleton.mpr⟩
      refine (all ids growth id mine).resolve_left fun isRoot => ?_
      exact not_path_self founded root (List.mem_singleton.mp isRoot ▸ owned.below mine)
    case order => exact topDown.sublist sublist
    case externalOnce => exact externalOnce
    case external =>
      intro d
      rw [exact d]
      simp only [mem_ascending, Block.ids]

end Members

section Disjoint

/-- The readers of a member belong to the block. -/
theorem reader_mem_ids (linked : p.Linked) {b : Block} (exact : b.Exact p) {reader id : NodeId}
    (edge : p.Edge reader id) (member : id ∈ b.members) : reader ∈ b.ids := by
  obtain ⟨n, found⟩ := linked.live_of_edge edge
  have parent := (linked.mem_parents_iff found).mpr edge
  exact List.mem_cons.mpr (exact.owned.parents member found parent)

/-- No block has a member where another could start: all that leads there from the root would be
projections of the block, the root with them. -/
theorem not_mem_of_topAggregate (linked : p.Linked) (rooted : p.root = some root)
    (rootless : ∀ up, ¬ p.Edge up root) {b : Block} (exact : b.Exact p) (aggregates : p.Aggregates b.root)
    {id : NodeId} (top : p.TopAggregate id) : id ∉ b.members := by
  obtain ⟨⟨_, same, path⟩, -⟩ := top
  cases rooted.symm.trans same
  induction path with
  | refl =>
    intro member
    obtain ⟨up, _, edge⟩ := TransGen.tail'_iff.mp (exact.owned.below member)
    exact rootless up edge
  | tail _ pass ih =>
    intro member
    rcases List.mem_cons.mp (reader_mem_ids linked exact pass.edge member) with rfl | inside
    · obtain ⟨n, found, projection, _⟩ := pass
      obtain ⟨m, there, aggregate⟩ := aggregates
      cases found.symm.trans there
      exact nomatch projection.symm.trans aggregate
    · exact ih inside

/-- Blocks with different roots share no node: what leads from one root to it would lie in both. -/
theorem disjoint_blocks (linked : p.Linked) (rooted : p.root = some root)
    (rootless : ∀ up, ¬ p.Edge up root) {b b' : Block} (exact : b.Exact p) (exact' : b'.Exact p)
    (top : p.TopAggregate b.root) (top' : p.TopAggregate b'.root) (different : b.root ≠ b'.root) :
    b.ids.Disjoint b'.ids := by
  have apart : b.root ∉ b'.members := not_mem_of_topAggregate linked rooted rootless exact' top'.2 top
  have apart' : b'.root ∉ b.members := not_mem_of_topAggregate linked rooted rootless exact top.2 top'
  have climb {id} (path : ReflTransGen p.Edge b.root id) : id ∈ b.ids → id ∈ b'.ids → False := by
    induction path with
    | refl => exact fun _ inside' => (List.mem_cons.mp inside').elim different apart
    | tail _ edge ih =>
      intro inside inside'
      rcases List.mem_cons.mp inside with rfl | member
      · exact (List.mem_cons.mp inside').elim different apart
      rcases List.mem_cons.mp inside' with rfl | member'
      · exact apart' member
      exact ih (reader_mem_ids linked exact edge member) (reader_mem_ids linked exact' edge member')
  intro id inside inside'
  refine climb ?_ inside inside'
  rcases List.mem_cons.mp inside with same | member
  · exact same ▸ .refl
  · exact (exact.owned.below member).to_reflTransGen

end Disjoint

/-- The blocks of a plan without endless paths, whose root nothing reads. -/
theorem Paired.blocks_exact (paired : p.Paired) (founded : WellFounded fun d id => p.Edge id d)
    (rooted : p.root = some root) (rootless : ∃ n, p.node? root = some n ∧ n.parents = []) :
    ∃ bs, p.blocks = .ok bs ∧ (bs.map Block.root).Nodup
      ∧ (∀ id, id ∈ bs.map Block.root ↔ p.TopAggregate id) ∧ (∀ b ∈ bs, b.Exact p)
      ∧ bs.Pairwise fun b b' => b.ids.Disjoint b'.ids := by
  obtain ⟨n, found, none⟩ := rootless
  obtain ⟨roots, searched, distinct, tops⟩ := blockRoots_ok paired.toLinked rooted ⟨n, found⟩
  obtain ⟨order, ordered, perm, sorted⟩ := topologicalOrder_ok paired founded
  have each : ∀ root ∈ roots, ∃ b, p.blockAt order.reverse root = .ok b ∧ b.root = root ∧ b.Exact p := by
    intro id member
    obtain ⟨m, there, _⟩ := ((tops id).mp member).2
    exact paired.blockAt_exact founded perm sorted ⟨m, there⟩
  choose! blockOf made own exact using each
  have sameRoots : (roots.map blockOf).map Block.root = roots := by
    rw [List.map_map]
    exact (List.map_congr_left own).trans (List.map_id roots)
  have isExact : ∀ b ∈ roots.map blockOf, b.Exact p := List.forall_mem_map.mpr exact
  have isTop {b} (member : b ∈ roots.map blockOf) : p.TopAggregate b.root :=
    (tops b.root).mp (sameRoots ▸ List.mem_map_of_mem member)
  refine ⟨roots.map blockOf, ?_, sameRoots.symm ▸ distinct, sameRoots.symm ▸ tops, isExact, ?_⟩
  · unfold blocks
    rw [rooted]
    simp only [searched, ordered, bind, Except.bind]
    exact mapM_eq_ok.mpr (List.forall₂_map_right_iff.mpr (List.forall₂_same.mpr made))
  · have rootless (up) (edge : p.Edge up root) : False := by
      have parent := (paired.mem_parents_iff found).mpr edge
      rw [none] at parent
      cases parent
    refine (List.pairwise_map.mp (sameRoots.symm ▸ distinct)).imp_of_mem fun {b b'} member member' different => ?_
    exact disjoint_blocks paired.toLinked rooted rootless (isExact b member) (isExact b' member')
      (isTop member) (isTop member') different

/-- Two aggregates read a third, which has the first among its parents three times. -/
def overnamedPlan : Plan := samplePlan [sampleNode 0 .aggregate [] [1, 2] [] [],
  { sampleNode 1 .aggregate [0] [2] [] [] with dependents := [⟨2⟩, ⟨2⟩] },
  sampleNode 2 .aggregate [1, 0, 0, 0] [] [] []]

/-- The check does not count the names of parents. If one came up again, a node could be twice in the order and another
not at all: here the second node is missed, and the last with it. No plan that can come about is like that. -/
theorem overnamedPlan_blocks : overnamedPlan.check = .ok ()
    ∧ overnamedPlan.blocks = .ok [⟨⟨0⟩, [], [⟨1⟩, ⟨2⟩]⟩]
    ∧ ¬ (⟨⟨0⟩, [], [⟨1⟩, ⟨2⟩]⟩ : Block).Exact overnamedPlan ∧ ¬ overnamedPlan.Made := by
  refine ⟨rfl, rfl, fun exact => ?_, fun made => ?_⟩
  · have owned : overnamedPlan.Owned ⟨0⟩ (· = ⟨1⟩) := by
      constructor
      case below =>
        rintro _ rfl
        exact .single ⟨_, rfl, List.mem_cons_self⟩
      case parents =>
        rintro _ n parent rfl found member
        cases found
        exact .inl (List.mem_singleton.mp member)
    cases exact.largest owned rfl
  · have named : overnamedPlan.node? ⟨2⟩ = some (sampleNode 2 .aggregate [1, 0, 0, 0] [] [] []) := rfl
    have once := made.stored.parents named
    revert once
    decide

end Plan

end ApproxQuery
