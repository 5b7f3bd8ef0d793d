import ApproxQuery.Proofs.Plan.Fillable

/-! Nodes that can be merged. A merge takes the merged node out of the plan and joins its edges; it
makes no other node mergeable, since what a query hides stays hidden wherever the query goes. -/
namespace ApproxQuery.Plan

open Relation

variable {p : Plan} {tops : List NodeId} {root id up childId parentId : NodeId} {child parent : Node}
  {nodes : AscendingMap NodeId Node}

/-- A node that can be merged: it is not progressive, and has a place in the query that reads it. -/
def Mergeable (p : Plan) (id : NodeId) : Prop :=
  ∃ n up m, p.node? id = some n ∧ n.isProgressive = false ∧ p.node? up = some m
    ∧ id ∈ m.dependents ∧ m.query.HasPlace id

section Targets

private theorem allEqual_of_forall {α : Type} [DecidableEq α] {values : List α} {a : α}
    (each : ∀ x ∈ values, x = a) : allEqual values = true := by
  induction values with
  | nil => rfl
  | cons x rest ih =>
    cases rest with
    | nil => rfl
    | cons y rest =>
      have same : x = y := by
        rw [each x List.mem_cons_self, each y (List.mem_cons_of_mem _ List.mem_cons_self)]
      have later := ih fun z member => each z (List.mem_cons_of_mem _ member)
      simp [allEqual, same, later]

/-- An attempt is made at every node that is not progressive and is read by another. -/
theorem Sound.mergeTarget?_iff (sound : p.Sound [root]) (rooted : p.root = some root) :
    p.mergeTarget? id = some up ↔ ∃ n m, p.node? id = some n ∧ n.isProgressive = false
      ∧ p.node? up = some m ∧ id ∈ m.dependents := by
  constructor
  · intro target
    obtain ⟨child, parent, merging⟩ := sound.merging target
    refine ⟨child, parent, merging.childFound, ?_, merging.parentFound, merging.member⟩
    cases progressive : child.isProgressive with
    | false => rfl
    | true => simp [mergeTarget?, merging.childFound, progressive] at target
  · rintro ⟨n, m, found, plain, there, member⟩
    have below : root ≠ id := by
      rintro rfl
      exact sound.not_top there member List.mem_cons_self
    obtain ⟨n', found', _, only, _⟩ := sound.reads there member
    cases found.symm.trans found'
    have plain' : m.isProgressive = false := by
      cases progressive : m.isProgressive with
      | false => rfl
      | true => exact absurd ((sound.consistent there).progressive progressive) (List.ne_nil_of_mem member)
    have alike : allEqual ((m.dependents.filterMap p.node?).map Node.broadcastSet) = true := by
      apply allEqual_of_forall (a := ascending m.listens)
      intro queues inSets
      obtain ⟨d, inNodes, rfl⟩ := List.mem_map.mp inSets
      obtain ⟨other, reads, foundOther⟩ := List.mem_filterMap.mp inNodes
      obtain ⟨d', thereOther, _, _, heard⟩ := sound.reads there reads
      cases foundOther.symm.trans thereOther
      exact congrArg ascending heard
    simp [mergeTarget?, found, rooted, below, plain, only, there, plain', alike]

end Targets

namespace Merged

/-- A node has the kind it had. -/
theorem kind (merging : Merging p tops childId parentId child parent)
    (merged : Merged p childId parentId child parent nodes) {n : Node}
    (found : ({ p with nodes } : Plan).node? id = some n) :
    ∃ m, p.node? id = some m ∧ n.kind = m.kind := by
  rcases merged.origin merging found with ⟨rfl, rfl⟩ | ⟨_, _, m, _, _, there, rfl, _⟩
  · exact ⟨parent, merging.parentFound, rfl⟩
  · exact ⟨m, there, rfl⟩

/-- The child is what the plan has lost. -/
theorem nodeIds_perm (merging : Merging p tops childId parentId child parent)
    (replaced : (inlineInto childId child.query parent.query).2 ≠ 0)
    (merged : Merged p childId parentId child parent nodes) :
    (childId :: ({ p with nodes } : Plan).nodeIds).Perm p.nodeIds := by
  have sound := Sound.merged merging replaced merged
  have gone : childId ∉ ({ p with nodes } : Plan).nodeIds := by
    intro member
    obtain ⟨n, found⟩ := sound.paired.mem_nodeIds.mp member
    exact nomatch found.symm.trans merged.gone
  refine (List.perm_ext_iff_of_nodup (List.nodup_cons.mpr ⟨gone, sound.ordered.nodup_keys⟩)
    merging.sound.ordered.nodup_keys).mpr fun id => ?_
  rw [List.mem_cons]
  refine Iff.trans ?_ merging.sound.paired.mem_nodeIds.symm
  constructor
  · rintro (rfl | member)
    · exact ⟨child, merging.childFound⟩
    · obtain ⟨n, found⟩ := sound.paired.mem_nodeIds.mp member
      obtain ⟨m, there, _⟩ := merged.before merging found
      exact ⟨m, there⟩
  · rintro ⟨m, there⟩
    by_cases isChild : id = childId
    · exact .inl isChild
    · obtain ⟨n, found, _⟩ := merged.keeps merging there isChild
      exact .inr (sound.paired.mem_nodeIds.mpr ⟨n, found⟩)

/-- With the parent for the child, an edge stays, and the one between the two falls away. -/
private theorem edge (merging : Merging p tops childId parentId child parent)
    (merged : Merged p childId parentId child parent nodes) {a d : NodeId} (edge : p.Edge a d) :
    ReflTransGen ({ p with nodes } : Plan).Edge
      (if a = childId then parentId else a) (if d = childId then parentId else d) := by
  obtain ⟨n, found, member⟩ := edge
  by_cases reads : a = childId
  · subst reads
    cases merging.childFound.symm.trans found
    rw [if_pos rfl, if_neg (merging.apart member).1]
    exact .single ⟨_, merged.merged, List.mem_append_right _ member⟩
  · rw [if_neg reads]
    by_cases isChild : d = childId
    · rw [if_pos isChild, merging.sound.edge_unique ⟨n, found, isChild ▸ member⟩
        ⟨parent, merging.parentFound, merging.member⟩]
    · obtain ⟨n', found', _, _, kept⟩ := merged.keeps merging found reads
      rw [if_neg isChild]
      exact .single ⟨n', found', kept d member isChild⟩

theorem path (merging : Merging p tops childId parentId child parent)
    (merged : Merged p childId parentId child parent nodes) {a d : NodeId}
    (path : ReflTransGen p.Edge a d) : ReflTransGen ({ p with nodes } : Plan).Edge
      (if a = childId then parentId else a) (if d = childId then parentId else d) :=
  path.lift' (fun id => if id = childId then parentId else id) fun _ _ edge => merged.edge merging edge

/-- What can be merged after a merge could be merged before. -/
theorem mergeable (merging : Merging p tops childId parentId child parent)
    (replaced : (inlineInto childId child.query parent.query).2 ≠ 0)
    (merged : Merged p childId parentId child parent nodes)
    (after : ({ p with nodes } : Plan).Mergeable id) : p.Mergeable id := by
  obtain ⟨n, up, m, found, plain, there, member, place⟩ := after
  obtain ⟨n', before, kind⟩ := merged.kind merging found
  have plain' : n'.isProgressive = false := by
    rw [Node.isProgressive, Node.scramble?, ← kind]
    exact plain
  rcases merged.origin merging there with ⟨rfl, rfl⟩ | ⟨_, _, m', _, _, there', rfl, _⟩
  · -- A node that had no place in the query that read it stood at a marker, and still does.
    have once := ((Sound.merged merging replaced merged).consistent there).read_once member
    have placed {reader : NodeId} {r : Node} (readerFound : p.node? reader = some r)
        (reads : id ∈ r.dependents) (kept : r.query.marker? = some id ∨ r.query.Hides id →
          (inlineInto childId child.query parent.query).1.marker? = some id
            ∨ (inlineInto childId child.query parent.query).1.Hides id) : r.query.HasPlace id := by
      obtain ⟨ref, inQuery, rfl⟩ := (merging.sound.consistent readerFound).mem_dependents.mp reads
      rcases Query.hasPlace_or_marker inQuery with here | marked
      · exact here
      · exact absurd place (Query.not_hasPlace once (kept marked))
    rcases List.mem_append.mp member with own | inherited
    · have dependent := (List.mem_filter.mp own).1
      refine ⟨n', up, parent, before, plain', merging.parentFound, dependent,
        placed merging.parentFound dependent ?_⟩
      exact Or.imp (marker?_inlineInto childId child.query parent.query).trans
        (hides_inlineInto childId child.query)
    · refine ⟨n', childId, child, before, plain', merging.childFound, inherited,
        placed merging.childFound inherited ?_⟩
      rintro (marker | hides)
      · cases merging.unmarked.symm.trans marker
      · exact .inr (hides_inlined replaced hides)
  · exact ⟨n', up, m', before, plain', there', member, place⟩

end Merged

end ApproxQuery.Plan
