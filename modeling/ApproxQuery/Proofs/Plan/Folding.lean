import ApproxQuery.Plan.Compress
import ApproxQuery.Proofs.Plan.Order
import ApproxQuery.Proofs.Query.Placeholders

/-! Merging a node into the only one that reads it, in a plan of any shape without cycles: the attempt
fails and changes nothing, or the node is gone and its edges are joined to those of its parent. -/
namespace ApproxQuery.Plan

open Relation

/-- Queries hold placeholders for dependents of their nodes only, or for nodes that are gone. -/
def Placed (p : Plan) : Prop := ∀ id n ref, p.node? id = some n → ref ∈ n.query.placeholders →
  ref.node ∈ n.dependents ∨ p.node? ref.node = none

/-- No query holds a placeholder for its own node, so that to put a query in its place in another is done
once it is put there. -/
theorem Placed.not_own {p : Plan} (placed : p.Placed) (acyclic : p.Acyclic) {id : NodeId} {n : Node}
    {ref : PlaceholderRef} (found : p.node? id = some n) (member : ref ∈ n.query.placeholders) :
    ref.node ≠ id := by
  rintro rfl
  rcases placed ref.node n ref found member with reads | missing
  · exact acyclic.loopless ref.node (.single ⟨n, found, reads⟩)
  · exact nomatch missing.symm.trans found

theorem mem_placeholders_inlineInto {childId : NodeId} {child parent : Query} {ref : PlaceholderRef}
    (member : ref ∈ (inlineInto childId child parent).1.placeholders) :
    ref ∈ parent.placeholders ∨ ref ∈ child.placeholders := by
  unfold inlineInto at member
  split at member
  · exact Query.mem_placeholders_fillMarkers member
  · exact Query.mem_placeholders_fillTables member

/-- A node with the only one that reads it. -/
structure Folding (p : Plan) (childId parentId : NodeId) (child parent : Node) : Prop where
  acyclic : p.Acyclic
  childFound : p.node? childId = some child
  parentFound : p.node? parentId = some parent
  only : child.parents = [parentId]

/-- The parent with the child's query in it and the child's dependents, still listening as before. -/
def foldedParent (childId : NodeId) (child parent : Node) : Node :=
  inheritRefs child (child.dependents.foldl Node.addDependent
    (({ parent with query := (inlineInto childId child.query parent.query).1 } : Node).removeDependent
      childId)) (inlineInto childId child.query parent.query).2

/-- The queue on which the child signals the parent. -/
def childQueue? (child parent : Node) : Option QueueId := child.broadcasts.find? parent.listens.contains

theorem foldl_addDependent (n : Node) (ids : List NodeId) :
    ids.foldl Node.addDependent n = { n with dependents := ids.foldl Node.addOnce n.dependents } := by
  induction ids generalizing n with
  | nil => rfl
  | cons id rest ih => exact ih (n.addDependent id)

private theorem inheritRefs_eq (child parent : Node) (copies : Nat) :
    ∃ tables filters, inheritRefs child parent copies = { parent with tables, filters } := by
  induction copies with
  | zero => exact ⟨parent.tables, parent.filters, rfl⟩
  | succ copies ih =>
    obtain ⟨tables, filters, same⟩ := ih
    exact ⟨_, _, by rw [inheritRefs, same]⟩

theorem foldedParent_eq (childId : NodeId) (child parent : Node) :
    ∃ tables filters, foldedParent childId child parent = { parent with
      query := (inlineInto childId child.query parent.query).1
      dependents := child.dependents.foldl Node.addOnce (parent.dependents.filter fun d => d ≠ childId)
      tables, filters } := by
  obtain ⟨tables, filters, same⟩ := inheritRefs_eq child (child.dependents.foldl Node.addDependent
    (({ parent with query := (inlineInto childId child.query parent.query).1 } : Node).removeDependent
      childId)) (inlineInto childId child.query parent.query).2
  exact ⟨tables, filters, by rw [foldedParent, same, foldl_addDependent]; rfl⟩

/-- A node that listens only where one of its dependents signals. -/
def listening (n : Node) (nodes : AscendingMap NodeId Node) : Node :=
  { n with listens :=
      n.listens.filter ((n.dependents.filterMap nodes.find?).flatMap Node.broadcasts).contains }

private theorem listening_congr {n : Node} {nodes nodes' : AscendingMap NodeId Node}
    (same : ∀ d ∈ n.dependents, nodes'.find? d = nodes.find? d) : listening n nodes = listening n nodes' := by
  unfold listening
  rw [List.filterMap_congr same]

/-- The nodes of a plan after a merge. -/
structure Folded (p : Plan) (childId parentId : NodeId) (child parent : Node)
    (nodes : AscendingMap NodeId Node) : Prop where
  ordered : nodes.Ordered
  gone : nodes.find? childId = none
  folded : nodes.find? parentId = some (listening (foldedParent childId child parent) nodes)
  moved : ∀ {d n}, d ∈ child.dependents → p.node? d = some n →
    nodes.find? d = some (handOver child parentId (childQueue? child parent) n)
  other : ∀ {id}, id ≠ childId → id ≠ parentId → id ∉ child.dependents → nodes.find? id = p.node? id

/-- The nodes of a plan while the parent is redrawn and the child still there. -/
private structure HandedOver (p : Plan) (childId parentId : NodeId) (child parent : Node)
    (nodes : AscendingMap NodeId Node) : Prop where
  ordered : nodes.Ordered
  redrawn : nodes.find? parentId = some (foldedParent childId child parent)
  moved : ∀ {d n}, d ∈ child.dependents → p.node? d = some n →
    nodes.find? d = some (handOver child parentId (childQueue? child parent) n)
  other : ∀ {id}, id ≠ parentId → id ∉ child.dependents → nodes.find? id = p.node? id

namespace Folding

variable {p : Plan} {childId parentId : NodeId} {child parent : Node}

theorem edge (folding : Folding p childId parentId child parent) : p.Edge parentId childId := by
  refine (folding.acyclic.mem_parents_iff folding.childFound).mp ?_
  rw [folding.only]
  exact List.mem_singleton_self parentId

theorem different (folding : Folding p childId parentId child parent) : childId ≠ parentId := by
  rintro rfl
  exact folding.acyclic.loopless childId (.single folding.edge)

theorem foldedParent_id (folding : Folding p childId parentId child parent) :
    (foldedParent childId child parent).id = parentId := by
  have named : parent.id = parentId := folding.acyclic.named folding.parentFound
  obtain ⟨tables, filters, same⟩ := foldedParent_eq childId child parent
  rw [same]
  exact named

/-- Nothing that the child reads leads back to it. -/
theorem apart (folding : Folding p childId parentId child parent) {d : NodeId}
    (member : d ∈ child.dependents) : d ≠ childId ∧ d ≠ parentId := by
  have below : p.Edge childId d := ⟨child, folding.childFound, member⟩
  constructor
  · rintro rfl
    exact folding.acyclic.loopless d (.single below)
  · rintro rfl
    exact folding.acyclic.loopless d (.head folding.edge (.single below))

theorem mem_dependents (folding : Folding p childId parentId child parent) {d : NodeId} :
    d ∈ (foldedParent childId child parent).dependents
      ↔ d ≠ childId ∧ (d ∈ parent.dependents ∨ d ∈ child.dependents) := by
  obtain ⟨tables, filters, same⟩ := foldedParent_eq childId child parent
  rw [same, Node.mem_foldl_addOnce, List.mem_filter, decide_eq_true_eq]
  constructor
  · rintro (⟨own, notChild⟩ | inherited)
    · exact ⟨notChild, .inl own⟩
    · exact ⟨(folding.apart inherited).1, .inr inherited⟩
  · rintro ⟨notChild, own | inherited⟩
    · exact .inl ⟨own, notChild⟩
    · exact .inr inherited

end Folding

/-- Nodes that come to wait change nothing else. -/
theorem foldl_enqueue_eq (c : Compressing) (ids : List NodeId) :
    ids.foldl Compressing.enqueue c = { c with waiting := ids.foldl Node.addOnce c.waiting } := by
  induction ids generalizing c with
  | nil => rfl
  | cons id rest ih => exact ih _

/-- What is merged is a node with the only one that reads it. -/
theorem Acyclic.folding {p : Plan} (acyclic : p.Acyclic) {childId parentId : NodeId}
    (target : p.mergeTarget? childId = some parentId) :
    ∃ child parent, Folding p childId parentId child parent := by
  unfold mergeTarget? at target
  cases childFound : p.node? childId with
  | none => simp [childFound] at target
  | some child =>
    simp only [childFound, Option.bind_eq_bind, Option.bind_some] at target
    split at target
    · cases target
    · split at target
      · rename_i up only
        cases parentFound : p.node? up with
        | none => simp [parentFound] at target
        | some parent =>
          simp only [parentFound, Option.bind_some] at target
          split at target
          · cases target
          · split at target
            · cases target
              exact ⟨child, parent, acyclic, childFound, parentFound, only⟩
            · cases target
      · cases target

namespace Folding

variable {p : Plan} {childId parentId : NodeId} {child parent : Node}

/-- Without a place for the child nothing changes. -/
theorem merge_unread (folding : Folding p childId parentId child parent)
    (unread : (inlineInto childId child.query parent.query).2 = 0) :
    merge childId parentId p = (.error (.placeholderNotFound childId parentId), p) := by
  unfold merge
  refine (bind_ok (lookNode_eq folding.childFound)).trans ?_
  refine (bind_ok (lookNode_eq folding.parentFound)).trans ?_
  rcases found : inlineInto childId child.query parent.query with ⟨query, replaced⟩
  obtain rfl : replaced = 0 := (congrArg Prod.snd found).symm.trans unread
  rfl

/-- A child with dependents that signals the parent on no queue stays as well. -/
theorem merge_unheard (folding : Folding p childId parentId child parent)
    (replaced : (inlineInto childId child.query parent.query).2 ≠ 0)
    (unheard : ((childQueue? child parent).isNone && !child.dependents.isEmpty) = true) :
    merge childId parentId p = (.error (.invalid (.noCommonQueue childId parentId)), p) := by
  unfold merge
  refine (bind_ok (lookNode_eq folding.childFound)).trans ?_
  refine (bind_ok (lookNode_eq folding.parentFound)).trans ?_
  unfold childQueue? at unheard
  simp only [if_neg replaced, if_pos unheard]
  rfl

/-- Redrawing the parent and handing the dependents of the child over to it. -/
private theorem handOver_all (folding : Folding p childId parentId child parent) :
    ∃ nodes, (child.dependents.forM fun id => do
        let n ← lookNode id
        modify (·.insertNode (handOver child parentId (childQueue? child parent) n)) : PlanM Unit)
          (p.insertNode (foldedParent childId child parent))
        = (.ok (), { p.insertNode (foldedParent childId child parent) with nodes })
      ∧ HandedOver p childId parentId child parent nodes := by
  have look (id) : (p.insertNode (foldedParent childId child parent)).node? id
      = if parentId = id then some (foldedParent childId child parent) else p.node? id := by
    rw [node?_insertNode, folding.foldedParent_id]
  obtain ⟨nodes, done, ordered, after⟩ := forM_change (p := p.insertNode (foldedParent childId child parent))
    (handOver child parentId (childQueue? child parent)) (fun n => by unfold handOver; split <;> rfl)
    (folding.acyclic.dependents folding.childFound) fun d member => by
      obtain ⟨n, found, _⟩ := folding.acyclic.downwards folding.childFound member
      refine ⟨n, ?_, folding.acyclic.named found⟩
      rw [look, if_neg (folding.apart member).2.symm]
      exact found
  refine ⟨nodes, done, ordered (folding.acyclic.ordered.insert _ _), ?_, ?_, ?_⟩
  · rw [after, if_neg fun member => (folding.apart member).2 rfl, look, if_pos rfl]
  · intro d n member found
    rw [after, if_pos member, look, if_neg (folding.apart member).2.symm, found, Option.map_some]
  · intro id notParent unmoved
    rw [after, if_neg unmoved, look, if_neg notParent.symm]

/-- Last, the parent keeps the queues on which a dependent signals it, and the child goes. -/
private theorem folded_of_handedOver (folding : Folding p childId parentId child parent)
    {nodes : AscendingMap NodeId Node} (handed : HandedOver p childId parentId child parent nodes) :
    Folded p childId parentId child parent ((nodes.insert (foldedParent childId child parent).id
      (listening (foldedParent childId child parent) nodes)).erase childId) := by
  have look (id) : ((nodes.insert (foldedParent childId child parent).id
      (listening (foldedParent childId child parent) nodes)).erase childId).find? id
      = if childId = id then none else if parentId = id
        then some (listening (foldedParent childId child parent) nodes) else nodes.find? id := by
    rw [AscendingMap.find?_erase, AscendingMap.find?_insert, folding.foldedParent_id]
  refine ⟨(handed.ordered.insert _ _).erase _, ?_, ?_, ?_, ?_⟩
  · rw [look, if_pos rfl]
  · rw [look, if_neg folding.different, if_pos rfl]
    refine congrArg some (listening_congr fun d member => ?_)
    obtain ⟨notChild, reads⟩ := folding.mem_dependents.mp member
    have notParent : parentId ≠ d := by
      rintro rfl
      rcases reads with own | inherited
      · exact folding.acyclic.loopless parentId (.single ⟨parent, folding.parentFound, own⟩)
      · exact (folding.apart inherited).2 rfl
    rw [look, if_neg notChild.symm, if_neg notParent]
  · intro d n member found
    obtain ⟨notChild, notParent⟩ := folding.apart member
    rw [look, if_neg notChild.symm, if_neg notParent.symm]
    exact handed.moved member found
  · intro id notChild notParent unmoved
    rw [look, if_neg notChild.symm, if_neg notParent.symm]
    exact handed.other notParent unmoved

/-- Otherwise the child is folded into the parent. -/
theorem merge_folds (folding : Folding p childId parentId child parent)
    (replaced : (inlineInto childId child.query parent.query).2 ≠ 0)
    (heard : ((childQueue? child parent).isNone && !child.dependents.isEmpty) = false) :
    ∃ nodes, merge childId parentId p = (.ok child.dependents, { p with nodes })
      ∧ Folded p childId parentId child parent nodes := by
  obtain ⟨nodes, done, handed⟩ := folding.handOver_all
  let between : Plan := { p.insertNode (foldedParent childId child parent) with nodes }
  have inPlace : between.node? parentId = some (foldedParent childId child parent) := handed.redrawn
  have unheard : ¬ ((child.broadcasts.find? parent.listens.contains).isNone
      && !child.dependents.isEmpty) = true := by
    unfold childQueue? at heard
    rw [heard]
    exact Bool.false_ne_true
  have ran : merge childId parentId p = (.ok child.dependents,
      (between.insertNode (listening (foldedParent childId child parent) nodes)).removeNode childId) := by
    unfold merge
    refine (bind_ok (lookNode_eq folding.childFound)).trans ?_
    refine (bind_ok (lookNode_eq folding.parentFound)).trans ?_
    simp only [if_neg replaced, if_neg unheard]
    refine (bind_ok (a := ()) rfl).trans ?_
    refine (bind_ok done).trans ?_
    exact bind_ok (lookNode_eq inPlace)
  exact ⟨_, ran, folding.folded_of_handedOver handed⟩

/-- An attempt changes nothing, or folds the child into the parent. -/
theorem merge_cases (folding : Folding p childId parentId child parent) :
    (∃ e, merge childId parentId p = (.error e, p))
      ∨ ∃ nodes, merge childId parentId p = (.ok child.dependents, { p with nodes })
        ∧ Folded p childId parentId child parent nodes := by
  by_cases unread : (inlineInto childId child.query parent.query).2 = 0
  · exact .inl ⟨_, folding.merge_unread unread⟩
  cases heard : (childQueue? child parent).isNone && !child.dependents.isEmpty with
  | true => exact .inl ⟨_, folding.merge_unheard unread heard⟩
  | false => exact .inr (folding.merge_folds unread heard)

end Folding

/-- What a merge does to a node that stays: where it had the child it has the child's own edges. -/
structure Rejoined (childId parentId : NodeId) (child parent : Node) (id : NodeId) (n n' : Node) : Prop where
  named : n'.id = id
  parentsOnce : n'.parents.Nodup
  dependentsOnce : n'.dependents.Nodup
  parents : ∀ {up}, up ∈ n'.parents
    ↔ up ≠ childId ∧ (up ∈ n.parents ∨ up = parentId ∧ id ∈ child.dependents)
  dependents : ∀ {d}, d ∈ n'.dependents
    ↔ d ≠ childId ∧ (d ∈ n.dependents ∨ id = parentId ∧ d ∈ child.dependents)
  query : n'.query = if id = parentId then (inlineInto childId child.query parent.query).1 else n.query

namespace Folding

variable {p : Plan} {childId parentId : NodeId} {child parent : Node}

private theorem rejoined_parent (folding : Folding p childId parentId child parent)
    (nodes : AscendingMap NodeId Node) : Rejoined childId parentId child parent parentId parent
      (listening (foldedParent childId child parent) nodes) := by
  obtain ⟨tables, filters, same⟩ := foldedParent_eq childId child parent
  constructor
  case named => exact folding.foldedParent_id
  case parentsOnce =>
    have once := folding.acyclic.parents folding.parentFound
    rwa [same]
  case dependentsOnce =>
    rw [same]
    exact Node.nodup_foldl_addOnce _ ((folding.acyclic.dependents folding.parentFound).filter _)
  case parents =>
    intro up
    have notSelf : ¬ (up = parentId ∧ parentId ∈ child.dependents) :=
      fun ⟨_, member⟩ => (folding.apart member).2 rfl
    rw [same, or_iff_left notSelf]
    refine (and_iff_right_of_imp fun member => ?_).symm
    rintro rfl
    have edge := (folding.acyclic.mem_parents_iff folding.parentFound).mp member
    exact folding.acyclic.loopless up (.head edge (.single folding.edge))
  case dependents =>
    intro d
    rw [and_iff_right rfl]
    exact folding.mem_dependents
  case query => rw [if_pos rfl, same]; rfl

private theorem rejoined_dependent (folding : Folding p childId parentId child parent) {d : NodeId}
    {n : Node} (member : d ∈ child.dependents) (found : p.node? d = some n) :
    Rejoined childId parentId child parent d n (handOver child parentId (childQueue? child parent) n) := by
  have shape : ∃ broadcasts, handOver child parentId (childQueue? child parent) n
      = { n.replaceParent childId parentId with broadcasts } := by
    have named : child.id = childId := folding.acyclic.named folding.childFound
    unfold handOver
    rw [named]
    split
    · exact ⟨_, rfl⟩
    · exact ⟨_, rfl⟩
  obtain ⟨broadcasts, same⟩ := shape
  have notParent := (folding.apart member).2
  constructor
  case named =>
    have own := folding.acyclic.named found
    rwa [same]
  case parentsOnce =>
    rw [same]
    exact Node.nodup_foldl_addOnce _ List.nodup_nil
  case dependentsOnce =>
    have once := folding.acyclic.dependents found
    rwa [same]
  case parents =>
    intro up
    have childReads : childId ∈ n.parents :=
      (folding.acyclic.mem_parents_iff found).mpr ⟨child, folding.childFound, member⟩
    rw [same]
    simp only [Node.replaceParent, Node.mem_foldl_addOnce, List.mem_map, List.not_mem_nil, false_or]
    constructor
    · rintro ⟨old, parent, rfl⟩
      by_cases isChild : old = childId
      · rw [if_pos isChild]
        exact ⟨folding.different.symm, .inr ⟨rfl, member⟩⟩
      · rw [if_neg isChild]
        exact ⟨isChild, .inl parent⟩
    · rintro ⟨notChild, parent | ⟨rfl, _⟩⟩
      · exact ⟨up, parent, if_neg notChild⟩
      · exact ⟨childId, childReads, if_pos rfl⟩
  case dependents =>
    intro other
    rw [same, or_iff_left fun both => notParent both.1]
    refine (and_iff_right_of_imp fun reads => ?_).symm
    rintro rfl
    exact folding.acyclic.loopless other
      (.head ⟨child, folding.childFound, member⟩ (.single ⟨n, found, reads⟩))
  case query => rw [same, if_neg notParent]; rfl

private theorem rejoined_other (folding : Folding p childId parentId child parent) {id : NodeId} {n : Node}
    (notParent : id ≠ parentId) (unmoved : id ∉ child.dependents) (found : p.node? id = some n) :
    Rejoined childId parentId child parent id n n := by
  constructor
  case named => exact folding.acyclic.named found
  case parentsOnce => exact folding.acyclic.parents found
  case dependentsOnce => exact folding.acyclic.dependents found
  case parents =>
    intro up
    rw [or_iff_left fun both => unmoved both.2]
    refine (and_iff_right_of_imp fun member => ?_).symm
    rintro rfl
    exact unmoved ((folding.acyclic.mem_parents found folding.childFound).mp member)
  case dependents =>
    intro d
    rw [or_iff_left fun both => notParent both.1]
    refine (and_iff_right_of_imp fun member => ?_).symm
    rintro rfl
    have reader := (folding.acyclic.mem_parents_iff folding.childFound).mpr ⟨n, found, member⟩
    rw [folding.only] at reader
    exact notParent (List.mem_singleton.mp reader)
  case query => rw [if_neg notParent]

end Folding

namespace Folded

variable {p : Plan} {childId parentId : NodeId} {child parent : Node} {nodes : AscendingMap NodeId Node}

/-- All nodes but the child stay. -/
theorem keeps (folding : Folding p childId parentId child parent)
    (folded : Folded p childId parentId child parent nodes) {id : NodeId} {n : Node}
    (found : p.node? id = some n) (notChild : id ≠ childId) :
    ∃ n', nodes.find? id = some n' ∧ Rejoined childId parentId child parent id n n' := by
  by_cases isParent : id = parentId
  · subst isParent
    cases folding.parentFound.symm.trans found
    exact ⟨_, folded.folded, folding.rejoined_parent nodes⟩
  by_cases moved : id ∈ child.dependents
  · exact ⟨_, folded.moved moved found, folding.rejoined_dependent moved found⟩
  · exact ⟨n, (folded.other notChild isParent moved).trans found,
      folding.rejoined_other isParent moved found⟩

/-- No nodes come. -/
theorem origin (folding : Folding p childId parentId child parent)
    (folded : Folded p childId parentId child parent nodes) {id : NodeId} {n' : Node}
    (found' : nodes.find? id = some n') :
    id ≠ childId ∧ ∃ n, p.node? id = some n ∧ Rejoined childId parentId child parent id n n' := by
  have notChild : id ≠ childId := by
    rintro rfl
    exact nomatch folded.gone.symm.trans found'
  refine ⟨notChild, ?_⟩
  have before : ∃ n, p.node? id = some n := by
    by_cases isParent : id = parentId
    · exact ⟨parent, isParent ▸ folding.parentFound⟩
    by_cases moved : id ∈ child.dependents
    · obtain ⟨n, found, _⟩ := folding.acyclic.downwards folding.childFound moved
      exact ⟨n, found⟩
    · exact ⟨n', (folded.other notChild isParent moved).symm.trans found'⟩
  obtain ⟨n, found⟩ := before
  obtain ⟨m, found'', rejoined⟩ := folded.keeps folding found notChild
  cases found'.symm.trans found''
  exact ⟨n, found, rejoined⟩

/-- A new edge was a path by the child. -/
theorem path_of_edge (folding : Folding p childId parentId child parent)
    (folded : Folded p childId parentId child parent nodes) {a b : NodeId}
    (edge : ({ p with nodes } : Plan).Edge a b) : TransGen p.Edge a b := by
  obtain ⟨n', found', member⟩ := edge
  obtain ⟨_, n, found, rejoined⟩ := folded.origin folding found'
  obtain ⟨_, own | ⟨rfl, inherited⟩⟩ := rejoined.dependents.mp member
  · exact .single ⟨n, found, own⟩
  · exact .head folding.edge (.single ⟨child, folding.childFound, inherited⟩)

/-- A merge leaves edges recorded at both ends, each once, and closes no cycle. -/
theorem acyclic (folding : Folding p childId parentId child parent)
    (folded : Folded p childId parentId child parent nodes) : ({ p with nodes } : Plan).Acyclic := by
  constructor
  case loopless =>
    exact fun id loop => folding.acyclic.loopless id
      (TransGen.closed (fun _ _ edge => folded.path_of_edge folding edge) id id loop)
  case toPaired =>
    have origin {id n'} (found' : nodes.find? id = some n') := folded.origin folding found'
    refine ⟨⟨⟨folded.ordered, ?_, ?_⟩, ?_, ?_⟩, ?_⟩
    · intro id n' found'
      obtain ⟨_, n, _, rejoined⟩ := origin found'
      exact rejoined.named
    · intro id n' found'
      obtain ⟨_, n, _, rejoined⟩ := origin found'
      exact rejoined.parentsOnce
    · intro id n' up found' member
      obtain ⟨notChild, n, found, rejoined⟩ := origin found'
      obtain ⟨upNotChild, reader⟩ := rejoined.parents.mp member
      have before : ∃ m, p.node? up = some m ∧ (id ∈ m.dependents ∨ up = parentId ∧ id ∈ child.dependents) := by
        rcases reader with parent | ⟨rfl, inherited⟩
        · obtain ⟨m, there, reads⟩ := folding.acyclic.upwards found parent
          exact ⟨m, there, .inl reads⟩
        · exact ⟨parent, folding.parentFound, .inr ⟨rfl, inherited⟩⟩
      obtain ⟨m, there, reads⟩ := before
      obtain ⟨m', there', rejoined'⟩ := folded.keeps folding there upNotChild
      exact ⟨m', there', rejoined'.dependents.mpr ⟨notChild, reads⟩⟩
    · intro id n' d found' member
      obtain ⟨notChild, n, found, rejoined⟩ := origin found'
      obtain ⟨dNotChild, reads⟩ := rejoined.dependents.mp member
      have before : ∃ m, p.node? d = some m ∧ (id ∈ m.parents ∨ id = parentId ∧ d ∈ child.dependents) := by
        rcases reads with own | ⟨rfl, inherited⟩
        · obtain ⟨m, there, reader⟩ := folding.acyclic.downwards found own
          exact ⟨m, there, .inl reader⟩
        · obtain ⟨m, there, _⟩ := folding.acyclic.downwards folding.childFound inherited
          exact ⟨m, there, .inr ⟨rfl, inherited⟩⟩
      obtain ⟨m, there, reader⟩ := before
      obtain ⟨m', there', rejoined'⟩ := folded.keeps folding there dNotChild
      exact ⟨m', there', rejoined'.parents.mpr ⟨notChild, reader⟩⟩
    · intro id n' found'
      obtain ⟨_, n, _, rejoined⟩ := origin found'
      exact rejoined.dependentsOnce

/-- The plan loses the child and no other node. -/
theorem nodeIds_perm (folding : Folding p childId parentId child parent)
    (folded : Folded p childId parentId child parent nodes) : (childId :: nodes.keys).Perm p.nodeIds := by
  have absent : childId ∉ nodes.keys := fun member => by
    obtain ⟨n, found⟩ := folded.ordered.mem_keys.mp member
    exact nomatch folded.gone.symm.trans found
  refine (List.perm_ext_iff_of_nodup (List.nodup_cons.mpr ⟨absent, folded.ordered.nodup_keys⟩)
    folding.acyclic.ordered.nodup_keys).mpr fun id => ?_
  rw [List.mem_cons, folded.ordered.mem_keys]
  refine Iff.trans ?_ folding.acyclic.mem_nodeIds.symm
  constructor
  · rintro (rfl | ⟨n', found'⟩)
    · exact ⟨child, folding.childFound⟩
    · obtain ⟨_, n, found, _⟩ := folded.origin folding found'
      exact ⟨n, found⟩
  · rintro ⟨n, found⟩
    by_cases isChild : id = childId
    · exact .inl isChild
    · obtain ⟨n', found', _⟩ := folded.keeps folding found isChild
      exact .inr ⟨n', found'⟩

theorem placed (folding : Folding p childId parentId child parent)
    (folded : Folded p childId parentId child parent nodes) (placed : p.Placed) :
    ({ p with nodes } : Plan).Placed := by
  have gone {id} (missing : p.node? id = none) : nodes.find? id = none := by
    rw [Option.eq_none_iff_forall_ne_some]
    intro n' found'
    obtain ⟨_, n, found, _⟩ := folded.origin folding found'
    exact nomatch missing.symm.trans found
  intro id n' ref found' member
  obtain ⟨_, n, found, rejoined⟩ := folded.origin folding found'
  by_cases isChild : ref.node = childId
  · exact .inr (isChild ▸ folded.gone)
  have own (mine : ref ∈ n.query.placeholders) :
      ref.node ∈ n'.dependents ∨ nodes.find? ref.node = none :=
    (placed id n ref found mine).imp (fun reads => rejoined.dependents.mpr ⟨isChild, .inl reads⟩) gone
  rw [rejoined.query] at member
  split at member
  · rename_i isParent
    subst isParent
    cases folding.parentFound.symm.trans found
    rcases mem_placeholders_inlineInto member with mine | inherited
    · exact own mine
    · exact (placed childId child ref folding.childFound inherited).imp
        (fun reads => rejoined.dependents.mpr ⟨isChild, .inr ⟨rfl, reads⟩⟩) gone
  · exact own member

end Folded

end ApproxQuery.Plan
