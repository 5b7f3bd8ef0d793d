import ApproxQuery.Plan.Order
import ApproxQuery.Proofs.Plan.Nodes
import Mathlib.Algebra.Order.BigOperators.Group.List
import Mathlib.Algebra.Order.Group.Nat
import Mathlib.Logic.Relation

/-! Reachability and topological order over the edges of a plan, whatever its shape: the walk over
dependents finds exactly what paths lead to, and an order exists when no path is endless. -/
namespace ApproxQuery.Plan

open Relation

variable {p : Plan}

/-- A node reads another. -/
def Edge (p : Plan) (id dependent : NodeId) : Prop :=
  ∃ n, p.node? id = some n ∧ dependent ∈ n.dependents

theorem not_path_self (founded : WellFounded fun d id => p.Edge id d) (id : NodeId) :
    ¬ TransGen p.Edge id id := fun loop =>
  founded.transGen.asymmetric id id (transGen_swap.mp loop) (transGen_swap.mp loop)

section Reachability

def dependentsOf (p : Plan) (id : NodeId) : List NodeId :=
  ((p.node? id).map Node.dependents).getD []

theorem mem_dependentsOf {id d : NodeId} : d ∈ dependentsOf p id ↔ p.Edge id d := by
  unfold dependentsOf Edge
  cases p.node? id with
  | none => simp
  | some n => simp

private def allDependents (p : Plan) : List NodeId :=
  ascending (p.nodeList.flatMap Node.dependents)

private theorem mem_allDependents {id d : NodeId} (edge : p.Edge id d) : d ∈ allDependents p := by
  obtain ⟨n, found, member⟩ := edge
  have listed : n ∈ p.nodeList :=
    List.mem_map.mpr ⟨(id, n), AscendingMap.mem_entries_of_find? found, rfl⟩
  exact mem_ascending.mpr (List.mem_flatMap.mpr ⟨n, listed, member⟩)

private theorem length_allDependents_lt (p : Plan) : (allDependents p).length < p.rounds := by
  have fewer : (p.nodeList.flatMap Node.dependents).length
      ≤ (p.nodeList.flatMap fun n => n.parents ++ n.dependents).length := by
    simp only [List.length_flatMap, List.length_append]
    exact List.sum_le_sum fun n _ => Nat.le_add_left _ _
  have := length_ascending_le (p.nodeList.flatMap Node.dependents)
  unfold allDependents rounds
  omega

private theorem mem_foldl_insertAscending {fresh seen : List NodeId} {x : NodeId} :
    x ∈ fresh.foldl (fun seen d => insertAscending d seen) seen ↔ x ∈ fresh ∨ x ∈ seen := by
  induction fresh generalizing seen with
  | nil => simp
  | cons d rest ih => rw [List.foldl_cons, ih, mem_insertAscending, List.mem_cons, or_left_comm, or_assoc]

private theorem pairwise_foldl_insertAscending (fresh : List NodeId) {seen : List NodeId}
    (sorted : seen.Pairwise (· < ·)) :
    (fresh.foldl (fun seen d => insertAscending d seen) seen).Pairwise (· < ·) := by
  induction fresh generalizing seen with
  | nil => exact sorted
  | cons d rest ih => exact ih (pairwise_insertAscending d sorted)

/-- What holds between the rounds of a walk: all that was seen is reached, and what a node leads to
was seen unless the node still waits on the stack. -/
private structure Reaching (p : Plan) (start : NodeId) (seen stack : List NodeId) : Prop where
  sorted : seen.Pairwise (· < ·)
  sound : ∀ d ∈ seen, TransGen p.Edge start d
  stacked : ∀ d ∈ stack, d = start ∨ d ∈ seen
  closed : ∀ id d, id = start ∨ id ∈ seen → id ∉ stack → p.Edge id d → d ∈ seen

private theorem reaching_step {start id : NodeId} {seen stack fresh : List NodeId}
    (inv : Reaching p start seen (id :: stack))
    (news : ∀ d, d ∈ fresh ↔ p.Edge id d ∧ d ∉ seen) :
    Reaching p start (fresh.foldl (fun seen d => insertAscending d seen) seen) (fresh ++ stack) where
  sorted := pairwise_foldl_insertAscending fresh inv.sorted
  sound := by
    intro d member
    rcases mem_foldl_insertAscending.mp member with new | old
    · have edge := ((news d).mp new).1
      rcases inv.stacked id List.mem_cons_self with same | before
      · exact TransGen.single (same ▸ edge)
      · exact (inv.sound id before).tail edge
    · exact inv.sound d old
  stacked := by
    intro d member
    rw [mem_foldl_insertAscending]
    rcases List.mem_append.mp member with new | old
    · exact .inr (.inl new)
    · exact (inv.stacked d (List.mem_cons_of_mem _ old)).imp_right .inr
  closed := by
    intro a d known notWaiting edge
    rw [mem_foldl_insertAscending] at known ⊢
    rw [List.mem_append, not_or] at notWaiting
    by_cases same : a = id
    · by_cases old : d ∈ seen
      · exact .inr old
      · exact .inl ((news d).mpr ⟨same ▸ edge, old⟩)
    · have before : a = start ∨ a ∈ seen := by
        rcases known with first | new | old
        · exact .inl first
        · exact False.elim (notWaiting.1 new)
        · exact .inr old
      refine .inr (inv.closed a d before ?_ edge)
      exact fun member => (List.mem_cons.mp member).elim same notWaiting.2

/-- What is newly seen counts down what is still unseen. -/
theorem length_unseen {all seen fresh seen' : List NodeId} (distinct : all.Nodup)
    (freshOnce : fresh.Nodup) (within : ∀ d ∈ fresh, d ∈ all ∧ d ∉ seen)
    (grown : ∀ {d}, d ∈ seen' ↔ d ∈ fresh ∨ d ∈ seen) :
    (all.filter fun d => d ∉ seen).length
      = fresh.length + (all.filter fun d => d ∉ seen').length := by
  rw [← List.length_append]
  refine List.Perm.length_eq ((List.perm_ext_iff_of_nodup (distinct.filter _) ?_).mpr ?_)
  · refine List.nodup_append.mpr ⟨freshOnce, distinct.filter _, ?_⟩
    rintro d new _ later rfl
    have unseen := of_decide_eq_true (List.mem_filter.mp later).2
    exact unseen (grown.mpr (.inl new))
  · intro d
    simp only [List.mem_append, List.mem_filter, decide_eq_true_eq, grown, not_or]
    constructor
    · rintro ⟨member, unseen⟩
      by_cases new : d ∈ fresh
      · exact .inl new
      · exact .inr ⟨member, new, unseen⟩
    · rintro (new | ⟨member, _, unseen⟩)
      · exact within d new
      · exact ⟨member, unseen⟩

private theorem reaching_reach {start : NodeId} (fuel : Nat) {seen stack : List NodeId}
    (inv : Reaching p start seen stack)
    (enough : stack.length + ((allDependents p).filter fun d => d ∉ seen).length ≤ fuel) :
    Reaching p start (p.reach fuel seen stack) [] := by
  induction fuel generalizing seen stack with
  | zero =>
    have empty : stack = [] := List.length_eq_zero_iff.mp (by omega)
    rw [reach]
    exact empty ▸ inv
  | succ fuel ih =>
    cases stack with
    | nil => exact inv
    | cons id stack =>
      rw [reach]
      have freshOnce : ((ascending (dependentsOf p id)).filter fun d => d ∉ seen).Nodup :=
        (nodup_ascending _).filter _
      have news (d) : d ∈ (ascending (dependentsOf p id)).filter (fun d => d ∉ seen)
          ↔ p.Edge id d ∧ d ∉ seen := by
        rw [List.mem_filter, mem_ascending, mem_dependentsOf, decide_eq_true_eq]
      refine ih (reaching_step inv news) ?_
      have split := length_unseen (nodup_ascending (p.nodeList.flatMap Node.dependents)) freshOnce
        (fun d member => ⟨mem_allDependents ((news d).mp member).1, ((news d).mp member).2⟩)
        mem_foldl_insertAscending
      rw [List.length_cons] at enough
      rw [List.length_append]
      unfold dependentsOf at split
      unfold allDependents at enough ⊢
      omega

private theorem reaching_descendants (p : Plan) (start : NodeId) :
    Reaching p start (p.descendants start) [] := by
  refine reaching_reach p.rounds ⟨List.Pairwise.nil, ?_, ?_, ?_⟩ ?_
  · intro d member
    cases member
  · exact fun d member => .inl (List.mem_singleton.mp member)
  · rintro id d (rfl | member) notWaiting
    · exact False.elim (notWaiting List.mem_cons_self)
    · cases member
  · have := length_allDependents_lt p
    have := List.length_filter_le (fun d => decide (d ∉ ([] : List NodeId))) (allDependents p)
    rw [List.length_singleton]
    omega

/-- The walk finds what a path of at least one edge leads to. -/
theorem mem_descendants {start d : NodeId} :
    d ∈ p.descendants start ↔ TransGen p.Edge start d := by
  have inv := reaching_descendants p start
  constructor
  · exact inv.sound d
  · intro path
    induction path with
    | single edge => exact inv.closed start _ (.inl rfl) List.not_mem_nil edge
    | tail _ edge ih => exact inv.closed _ _ (.inr ih) List.not_mem_nil edge

theorem nodup_descendants (p : Plan) (start : NodeId) : (p.descendants start).Nodup :=
  (reaching_descendants p start).sorted.nodup

/-- From what is read fewer nodes are reached, if it is on no loop. -/
theorem length_descendants_lt {id d : NodeId} (clear : ¬ TransGen p.Edge d d) (edge : p.Edge id d) :
    (p.descendants d).length < (p.descendants id).length := by
  have once : (d :: p.descendants d).Nodup :=
    List.nodup_cons.mpr ⟨mt mem_descendants.mp clear, p.nodup_descendants d⟩
  have below : d :: p.descendants d ⊆ p.descendants id := by
    refine List.cons_subset.mpr ⟨mem_descendants.mpr (.single edge), fun other member => ?_⟩
    exact mem_descendants.mpr (.head edge (mem_descendants.mp member))
  exact (List.subperm_of_subset once below).length_le

/-- In a plan without loops fewer nodes are reached at every step down, so no path is endless. -/
theorem founded_of_loopless (loopless : ∀ id, ¬ TransGen p.Edge id id) :
    WellFounded fun d id => p.Edge id d :=
  Subrelation.wf (fun {d _} edge => length_descendants_lt (loopless d) edge)
    (measure fun id => (p.descendants id).length).wf

end Reachability

/-- How plans hold their nodes: in ascending order, each under its own identifier, and none with a parent
that it names twice. -/
structure Stored (p : Plan) : Prop where
  ordered : p.nodes.Ordered
  named : ∀ {id n}, p.node? id = some n → n.id = id
  parents : ∀ {id n}, p.node? id = some n → n.parents.Nodup

namespace Stored

theorem mem_nodeIds (stored : Stored p) {id : NodeId} :
    id ∈ p.nodeIds ↔ ∃ n, p.node? id = some n := stored.ordered.mem_keys

theorem mem_nodeList (stored : Stored p) {n : Node} :
    n ∈ p.nodeList ↔ p.node? n.id = some n := by
  refine stored.ordered.mem_values.trans ⟨?_, fun found => ⟨n.id, found⟩⟩
  rintro ⟨id, found⟩
  have same : n.id = id := stored.named found
  rw [same]
  exact found

theorem map_id_nodeList (stored : Stored p) : p.nodeList.map Node.id = p.nodeIds := by
  unfold nodeList nodeIds AscendingMap.values AscendingMap.keys
  rw [List.map_map]
  refine List.map_congr_left fun entry member => ?_
  exact stored.named (stored.ordered.mem_entries.mp member)

end Stored

/-- Edges stay within the plan and are recorded at both ends. -/
structure Linked (p : Plan) : Prop extends Stored p where
  upwards : ∀ {id n parent}, p.node? id = some n → parent ∈ n.parents →
    ∃ m, p.node? parent = some m ∧ id ∈ m.dependents
  downwards : ∀ {id n d}, p.node? id = some n → d ∈ n.dependents →
    ∃ m, p.node? d = some m ∧ id ∈ m.parents

/-- An edge is recorded at one end when it is at the other. -/
theorem Linked.mem_parents (linked : Linked p) {id other : NodeId} {n m : Node}
    (found : p.node? id = some n) (there : p.node? other = some m) :
    other ∈ n.parents ↔ id ∈ m.dependents := by
  constructor
  · intro parent
    obtain ⟨m', there', member⟩ := linked.upwards found parent
    cases there.symm.trans there'
    exact member
  · intro member
    obtain ⟨n', found', parent⟩ := linked.downwards there member
    cases found.symm.trans found'
    exact parent

theorem Linked.mem_parents_iff (linked : p.Linked) {id reader : NodeId} {n : Node}
    (found : p.node? id = some n) : reader ∈ n.parents ↔ p.Edge reader id := by
  constructor
  · exact linked.upwards found
  · rintro ⟨m, there, member⟩
    exact (linked.mem_parents found there).mpr member

theorem Linked.live_of_edge (linked : p.Linked) {id d : NodeId} (edge : p.Edge id d) :
    ∃ m, p.node? d = some m := by
  obtain ⟨n, found, member⟩ := edge
  obtain ⟨m, there, _⟩ := linked.downwards found member
  exact ⟨m, there⟩

/-- Edges stay within the plan and are recorded at both ends, each once. -/
structure Paired (p : Plan) : Prop extends Linked p where
  dependents : ∀ {id n}, p.node? id = some n → n.dependents.Nodup

/-- Edges are recorded at both ends, each once, and no path leads back to where it starts. -/
structure Acyclic (p : Plan) : Prop extends Paired p where
  loopless : ∀ id, ¬ TransGen p.Edge id id

section Kahn

/-- What holds between the rounds: every node counts the dependents that have not been taken, those
that count none are ready or taken, and nodes were taken after all that they read. -/
private structure Kahn (p : Plan) (w : Pending) (taken : List NodeId) : Prop where
  distinct : (taken ++ w.ready).Nodup
  counts : ∀ {id n}, p.node? id = some n →
    w.counts.find? id = some (n.dependents.length - (taken.filter (· ∈ n.dependents)).length)
  exact : ∀ {id n}, p.node? id = some n →
    (id ∈ taken ++ w.ready ↔ n.dependents.length ≤ (taken.filter (· ∈ n.dependents)).length)
  within : ∀ id ∈ taken ++ w.ready, ∃ n, p.node? id = some n
  loopless : ∀ id ∈ taken, ¬ p.Edge id id
  earlier : taken.Pairwise fun later earlier => ¬ p.Edge earlier later

private theorem foldlM_arrive {parents : List NodeId} {w : Pending} (distinct : parents.Nodup)
    (counted : ∀ parent ∈ parents, ∃ count, w.counts.find? parent = some (count + 1)) :
    ∃ w', parents.foldlM Pending.arrive w = .ok w'
      ∧ (∀ id, w'.counts.find? id = if id ∈ parents then (w.counts.find? id).map (· - 1)
          else w.counts.find? id)
      ∧ w'.ready = w.ready ++ parents.filter fun parent => w.counts.find? parent = some 1 := by
  induction parents generalizing w with
  | nil => exact ⟨w, rfl, by simp, by simp⟩
  | cons first rest ih =>
    obtain ⟨fresh, distinctRest⟩ := List.nodup_cons.mp distinct
    obtain ⟨count, found⟩ := counted first List.mem_cons_self
    have arrived : w.arrive first = .ok ⟨w.counts.insert first count,
        if count = 0 then w.ready ++ [first] else w.ready⟩ := by
      rw [Pending.arrive, found]
      rfl
    have others (id) (member : id ∈ rest) :
        (w.counts.insert first count).find? id = w.counts.find? id := by
      rw [AscendingMap.find?_insert, if_neg]
      rintro rfl
      exact fresh member
    obtain ⟨w', done, counts, ready⟩ := ih (w := ⟨w.counts.insert first count,
        if count = 0 then w.ready ++ [first] else w.ready⟩) distinctRest fun parent member => by
      obtain ⟨c, before⟩ := counted parent (List.mem_cons_of_mem _ member)
      exact ⟨c, (others parent member).trans before⟩
    refine ⟨w', ?_, ?_, ?_⟩
    · rw [List.foldlM_cons, arrived]
      exact done
    · intro id
      rw [counts id, AscendingMap.find?_insert]
      by_cases same : first = id
      · subst same
        simp [fresh, found]
      · simp [same, Ne.symm same]
    · have rest' : rest.filter (fun parent => (w.counts.insert first count).find? parent = some 1)
          = rest.filter fun parent => w.counts.find? parent = some 1 :=
        List.filter_congr fun id member => by rw [others id member]
      rw [ready, rest', List.filter_cons, found]
      by_cases last : count = 0 <;> simp [last]

/-- Those taken of the nodes that are read. They are all of them if they are as many. -/
private theorem taken_subperm {taken : List NodeId} (once : taken.Nodup) (dependents : List NodeId) :
    (taken.filter (· ∈ dependents)).Subperm dependents := by
  refine List.subperm_of_subset (once.filter _) fun d member => ?_
  exact of_decide_eq_true (List.mem_filter.mp member).2

private theorem taken_perm {taken dependents : List NodeId} (once : taken.Nodup)
    (all : dependents.length ≤ (taken.filter (· ∈ dependents)).length) :
    (taken.filter (· ∈ dependents)).Perm dependents :=
  (taken_subperm once dependents).perm_of_length_le all

private theorem mem_taken {taken dependents : List NodeId} (once : taken.Nodup)
    (all : dependents.length ≤ (taken.filter (· ∈ dependents)).length) {d : NodeId}
    (member : d ∈ dependents) : d ∈ taken :=
  (List.mem_filter.mp ((taken_perm once all).mem_iff.mpr member)).1

private theorem kahn_step (linked : Linked p) {counts : AscendingMap NodeId Nat} {id : NodeId}
    {ready taken : List NodeId} (inv : Kahn p ⟨counts, id :: ready⟩ taken) {n : Node}
    (found : p.node? id = some n) :
    ∃ w, n.parents.foldlM Pending.arrive ⟨counts, ready⟩ = .ok w ∧ Kahn p w (id :: taken) := by
  obtain ⟨takenOnce, readyOnce, apart⟩ := List.nodup_append.mp inv.distinct
  have fresh : id ∉ taken := fun member => apart id member id List.mem_cons_self rfl
  have nextOnce : (id :: taken).Nodup := List.nodup_cons.mpr ⟨fresh, takenOnce⟩
  -- A parent has missed this node so far, so it is counted once more than it will be.
  have counted (dependents : List NodeId) : ((id :: taken).filter (· ∈ dependents)).length
      = (taken.filter (· ∈ dependents)).length + if id ∈ dependents then 1 else 0 := by
    by_cases own : id ∈ dependents <;> simp [own]
  have bounded (dependents : List NodeId) := (taken_subperm nextOnce dependents).length_le
  have notAfter {other m} (there : p.node? other = some m) (own : id ∈ m.dependents) :
      other ∉ taken ++ id :: ready := fun old => fresh (mem_taken takenOnce ((inv.exact there).mp old) own)
  obtain ⟨w, done, newCounts, newReady⟩ := foldlM_arrive (w := ⟨counts, ready⟩)
    (linked.parents found) fun parent member => by
      obtain ⟨m, there, own⟩ := linked.upwards found member
      have split := counted m.dependents
      have most := bounded m.dependents
      rw [if_pos own] at split
      refine ⟨m.dependents.length - ((id :: taken).filter (· ∈ m.dependents)).length, ?_⟩
      rw [inv.counts there]
      exact congrArg some (by omega)
  have nextCounts {other m} (there : p.node? other = some m) : w.counts.find? other
      = some (m.dependents.length - ((id :: taken).filter (· ∈ m.dependents)).length) := by
    rw [newCounts other, inv.counts there, counted]
    by_cases parent : other ∈ n.parents
    · rw [if_pos parent, if_pos ((linked.mem_parents found there).mp parent)]
      rfl
    · rw [if_neg parent, if_neg fun own => parent ((linked.mem_parents found there).mpr own)]
      rfl
  have becomesReady {other m} (there : p.node? other = some m) :
      other ∈ n.parents.filter (fun parent => counts.find? parent = some 1) ↔ id ∈ m.dependents
        ∧ m.dependents.length ≤ ((id :: taken).filter (· ∈ m.dependents)).length := by
    have split := counted m.dependents
    have most := bounded m.dependents
    rw [List.mem_filter, linked.mem_parents found there, decide_eq_true_eq, inv.counts there, Option.some.injEq]
    refine and_congr_right fun own => ?_
    rw [if_pos own] at split
    omega
  have regrouped : (id :: taken ++ w.ready).Perm
      ((taken ++ id :: ready) ++ n.parents.filter fun parent => counts.find? parent = some 1) := by
    rw [newReady, ← List.append_assoc]
    exact List.perm_middle.symm.append_right _
  refine ⟨w, done, ⟨?_, nextCounts, ?_, ?_, ?_, ?_⟩⟩
  · refine regrouped.nodup_iff.mpr (List.nodup_append.mpr ⟨inv.distinct, (linked.parents found).filter _, ?_⟩)
    rintro other old _ new rfl
    obtain ⟨m, there, own⟩ := linked.upwards found (List.mem_filter.mp new).1
    exact notAfter there own old
  · intro other m there
    rw [regrouped.mem_iff, List.mem_append, becomesReady there, inv.exact there, counted]
    by_cases own : id ∈ m.dependents
    · have old := mt (inv.exact there).mpr (notAfter there own)
      rw [if_pos own]
      exact ⟨fun either => either.elim (absurd · old) And.right, fun all => .inr ⟨own, all⟩⟩
    · rw [if_neg own, Nat.add_zero]
      exact or_iff_left fun new => own new.1
  · intro other member
    rcases List.mem_append.mp (regrouped.mem_iff.mp member) with old | new
    · exact inv.within other old
    · obtain ⟨m, there, _⟩ := linked.upwards found (List.mem_filter.mp new).1
      exact ⟨m, there⟩
  · intro other member edge
    rcases List.mem_cons.mp member with rfl | before
    · obtain ⟨m, there, own⟩ := edge
      exact notAfter there own (List.mem_append_right _ List.mem_cons_self)
    · exact inv.loopless other before edge
  · refine List.pairwise_cons.mpr ⟨fun other member edge => ?_, inv.earlier⟩
    obtain ⟨m, there, own⟩ := edge
    exact notAfter there own (List.mem_append_left _ member)

private theorem kahn_bounded (stored : Stored p) {w : Pending} {taken : List NodeId}
    (inv : Kahn p w taken) : taken.length ≤ p.size := by
  have inside : taken ⊆ p.nodeIds := fun id member =>
    stored.mem_nodeIds.mpr (inv.within id (List.mem_append_left _ member))
  have once : taken.Nodup := (List.nodup_append.mp inv.distinct).1
  exact Nat.le_trans (List.subperm_of_subset once inside).length_le
    (Nat.le_of_eq p.length_nodeIds)

private theorem kahn_run (linked : Linked p) (fuel : Nat) {w : Pending} {taken : List NodeId}
    (inv : Kahn p w taken) (enough : p.size < fuel + taken.length) :
    ∃ w' taken', p.orderFrom fuel w taken = .ok taken'.reverse ∧ Kahn p w' taken' ∧ w'.ready = [] := by
  induction fuel generalizing w taken with
  | zero =>
    have := kahn_bounded linked.toStored inv
    omega
  | succ fuel ih =>
    rcases w with ⟨counts, ready⟩
    cases ready with
    | nil => exact ⟨⟨counts, []⟩, taken, rfl, inv, rfl⟩
    | cons id ready =>
      obtain ⟨n, found⟩ := inv.within id (List.mem_append_right _ List.mem_cons_self)
      obtain ⟨w, arrived, next⟩ := kahn_step linked inv found
      have more : p.size < fuel + (id :: taken).length := by
        rw [List.length_cons]
        omega
      obtain ⟨w', taken', done, final, empty⟩ := ih next more
      have unfolded : p.orderFrom (fuel + 1) ⟨counts, id :: ready⟩ taken
          = (p.getNode id >>= fun n => n.parents.foldlM Pending.arrive ⟨counts, ready⟩ >>= fun w =>
            p.orderFrom fuel w (id :: taken)) := rfl
      refine ⟨w', taken', ?_, final, empty⟩
      rw [unfolded, getNode_eq found]
      change (n.parents.foldlM Pending.arrive ⟨counts, ready⟩ >>= _) = _
      rw [arrived]
      exact done

/-- What the search for an order starts with. -/
def pending (p : Plan) : Pending :=
  let counts := p.nodeList.foldl (fun counts n => counts.insert n.id n.dependents.length) .empty
  ⟨counts, (counts.entries.filter fun entry => entry.2 = 0).map Prod.fst⟩

theorem topologicalOrder_eq : p.topologicalOrder = p.orderFrom (p.rounds * p.rounds) p.pending [] >>= fun found =>
    if found.length = p.size then .ok found
    else .error (.invalid (.cycle (shortfall p.size found.length))) := rfl

private theorem kahn_start (stored : Stored p) : Kahn p p.pending [] := by
  let counts := p.nodeList.foldl (fun counts n => counts.insert n.id n.dependents.length) AscendingMap.empty
  change Kahn p ⟨counts, (counts.entries.filter fun entry => entry.2 = 0).map Prod.fst⟩ []
  have ordered : counts.Ordered :=
    AscendingMap.ordered_foldl_insert _ _ _ AscendingMap.ordered_empty
  have ids : (p.nodeList.map Node.id).Nodup := stored.map_id_nodeList ▸ stored.ordered.nodup_keys
  have inCounts {id n} (found : p.node? id = some n) :
      counts.find? id = some n.dependents.length := by
    have same := stored.named found
    subst same
    exact AscendingMap.find?_foldl_insert Node.id (fun n => n.dependents.length) _ ids
      (stored.mem_nodeList.mpr found)
  have inPlan {id count} (found : counts.find? id = some count) : ∃ n, p.node? id = some n := by
    refine stored.mem_nodeIds.mp ?_
    rw [← stored.map_id_nodeList]
    by_contra absent
    rw [AscendingMap.find?_foldl_insert_of_not_mem Node.id (fun n => n.dependents.length) _ absent]
      at found
    cases found
  have mem_ready {id} : id ∈ (counts.entries.filter fun entry => entry.2 = 0).map Prod.fst
      ↔ counts.find? id = some 0 := by
    rw [List.mem_map]
    constructor
    · rintro ⟨⟨_, count⟩, member, rfl⟩
      obtain ⟨listed, zero⟩ := List.mem_filter.mp member
      exact ordered.mem_entries.mp (of_decide_eq_true zero ▸ listed)
    · intro found
      exact ⟨(id, 0), List.mem_filter.mpr ⟨ordered.mem_entries.mpr found, decide_eq_true rfl⟩, rfl⟩
  constructor
  case distinct =>
    exact (List.Pairwise.sublist (List.Sublist.map _ List.filter_sublist) ordered.pairwise_keys).nodup
  case counts =>
    intro id n found
    simpa using inCounts found
  case exact =>
    intro id n found
    rw [List.nil_append, mem_ready, inCounts found, Option.some.injEq]
    exact Nat.le_zero.symm
  case within =>
    intro id member
    exact inPlan (mem_ready.mp member)
  case loopless =>
    intro id member
    cases member
  case earlier => exact List.Pairwise.nil

/-- The search for an order ends with nothing ready. -/
private theorem kahn_done (linked : Linked p) : ∃ w taken, Kahn p w taken ∧ w.ready = []
    ∧ p.orderFrom (p.rounds * p.rounds) p.pending [] = .ok taken.reverse := by
  have square : p.size < p.rounds * p.rounds + 0 := by
    have more : p.size < p.rounds := by
      unfold rounds
      omega
    exact Nat.lt_of_lt_of_le more (Nat.le_mul_self p.rounds)
  obtain ⟨w, taken, ran, inv, empty⟩ := kahn_run linked _ (kahn_start linked.toStored) square
  exact ⟨w, taken, inv, empty, ran⟩

/-- The search for an order never finds more nodes than there are, and where it finds fewer it tells how
many it lacks. -/
theorem Linked.orderFrom_ok (linked : Linked p) : ∃ found,
    p.orderFrom (p.rounds * p.rounds) p.pending [] = .ok found ∧ found.length ≤ p.size
      ∧ p.topologicalOrder = if found.length = p.size then .ok found
        else .error (.invalid (.cycle (p.size - found.length))) := by
  obtain ⟨w, taken, inv, _, ran⟩ := kahn_done linked
  have few : taken.reverse.length ≤ p.size := by
    rw [List.length_reverse]
    exact kahn_bounded linked.toStored inv
  refine ⟨taken.reverse, ran, few, ?_⟩
  have lacks : shortfall p.size taken.reverse.length = p.size - taken.reverse.length := if_pos few
  rw [topologicalOrder_eq, ran, ← lacks]
  rfl

/-- What a search for an order finds: nodes of the plan, each once and none before a node that it reads. A node is
found when all are that it reads. -/
structure Finds (p : Plan) (found : List NodeId) : Prop where
  once : found.Nodup
  within : ∀ id ∈ found, id ∈ p.nodeIds
  mem_iff : ∀ id ∈ p.nodeIds, id ∈ found ↔ ∀ d, p.Edge id d → d ∈ found
  loopless : ∀ id ∈ found, ¬ p.Edge id id
  sorted : found.Pairwise fun earlier later => ¬ p.Edge earlier later

theorem Paired.finds (paired : Paired p) :
    ∃ found, p.orderFrom (p.rounds * p.rounds) p.pending [] = .ok found ∧ p.Finds found := by
  obtain ⟨w, taken, inv, empty, ran⟩ := kahn_done paired.toLinked
  have once := inv.distinct
  have ready {id n} := @Kahn.exact p w taken inv id n
  rw [empty, List.append_nil] at once
  simp only [empty, List.append_nil] at ready
  refine ⟨taken.reverse, ran, ?_⟩
  constructor
  case once => exact List.nodup_reverse.mpr once
  case within =>
    intro id member
    have among : id ∈ taken ++ w.ready := List.mem_append_left _ (List.mem_reverse.mp member)
    exact paired.mem_nodeIds.mpr (inv.within id among)
  case mem_iff =>
    intro id live
    simp only [List.mem_reverse]
    constructor
    · rintro own d ⟨n, found, member⟩
      exact mem_taken once ((ready found).mp own) member
    · intro all
      obtain ⟨n, found⟩ := paired.mem_nodeIds.mp live
      apply (ready found).mpr
      refine (List.subperm_of_subset (paired.dependents found) fun d member => ?_).length_le
      exact List.mem_filter.mpr ⟨all d ⟨n, found, member⟩, decide_eq_true member⟩
  case loopless => exact fun id member => inv.loopless id (List.mem_reverse.mp member)
  case sorted => exact List.pairwise_reverse.mpr inv.earlier

/-- Without an endless path there is an order: all nodes, none before a node it reads. -/
theorem topologicalOrder_ok (paired : Paired p) (founded : WellFounded fun d id => p.Edge id d) :
    ∃ order, p.topologicalOrder = .ok order ∧ order.Perm p.nodeIds
      ∧ order.Pairwise fun earlier later => ¬ p.Edge earlier later := by
  obtain ⟨found, ran, finds⟩ := paired.finds
  have all (id) : id ∈ p.nodeIds → id ∈ found := by
    induction id using founded.induction with
    | _ id ih =>
      intro live
      apply (finds.mem_iff id live).mpr
      exact fun d edge => ih d edge (paired.mem_nodeIds.mpr (paired.live_of_edge edge))
  have perm : found.Perm p.nodeIds :=
    (List.perm_ext_iff_of_nodup finds.once paired.ordered.nodup_keys).mpr fun id => ⟨finds.within id, all id⟩
  refine ⟨found, ?_, perm, finds.sorted⟩
  rw [topologicalOrder_eq, ran]
  exact if_pos (perm.length_eq.trans p.length_nodeIds)

/-- An order is of all nodes, none before a node it reads. Every node then reads another once only,
and no path is endless. -/
theorem Linked.of_topologicalOrder (linked : Linked p) {order : List NodeId}
    (done : p.topologicalOrder = .ok order) :
    p.Paired ∧ (WellFounded fun d id => p.Edge id d) ∧ order.Perm p.nodeIds
      ∧ order.Pairwise fun earlier later => ¬ p.Edge earlier later := by
  obtain ⟨w, taken, inv, empty, ran⟩ := kahn_done linked
  have once : taken.Nodup := (List.nodup_append.mp inv.distinct).1
  rw [topologicalOrder_eq, ran] at done
  change (if taken.reverse.length = p.size then _ else _) = _ at done
  split at done
  · rename_i whole
    cases done
    have inside : taken.reverse ⊆ p.nodeIds := fun id member =>
      linked.mem_nodeIds.mpr (inv.within id (List.mem_append_left _ (List.mem_reverse.mp member)))
    have perm : taken.reverse.Perm p.nodeIds := by
      refine (List.subperm_of_subset (List.nodup_reverse.mpr once) inside).perm_of_length_le ?_
      exact Nat.le_of_eq (p.length_nodeIds.trans whole.symm)
    have takenAll {id n} (found : p.node? id = some n) : id ∈ taken :=
      List.mem_reverse.mp (perm.mem_iff.mpr (linked.mem_nodeIds.mpr ⟨n, found⟩))
    have sorted := List.pairwise_reverse.mpr inv.earlier
    refine ⟨⟨linked, fun {id n} found => ?_⟩, ?_, perm, sorted⟩
    · have all := (inv.exact found).mp (List.mem_append_left _ (takenAll found))
      exact (taken_perm once all).nodup_iff.mp (once.filter _)
    · refine Subrelation.wf (fun {d id} edge => ?_) (measure taken.reverse.idxOf).wf
      obtain ⟨n, found, member⟩ := edge
      obtain ⟨m, there, _⟩ := linked.downwards found member
      have inOrder {id n} (found : p.node? id = some n) : taken.reverse.idxOf id < taken.reverse.length :=
        List.idxOf_lt_length_of_mem (List.mem_reverse.mpr (takenAll found))
      rcases Nat.lt_trichotomy (taken.reverse.idxOf d) (taken.reverse.idxOf id) with before | same | after
      · exact before
      · have loop : d = id := (List.idxOf_inj (List.mem_reverse.mpr (takenAll there))).mp same
        exact absurd ⟨n, found, loop ▸ member⟩ (inv.loopless id (takenAll found))
      · have apart := List.pairwise_iff_getElem.mp sorted _ _ (inOrder found) (inOrder there) after
        rw [List.getElem_idxOf, List.getElem_idxOf] at apart
        exact absurd ⟨n, found, member⟩ apart
  · cases done

end Kahn

end ApproxQuery.Plan
