import ApproxQuery.Proofs.Plan.Folding
import ApproxQuery.Proofs.Plan.Sound

/-! Merging a node into its parent keeps a plan sound, or leaves it as it was. -/
namespace ApproxQuery.Plan

/-- A node and the parent it is merged into. -/
structure Merging (p : Plan) (tops : List NodeId) (childId parentId : NodeId)
    (child parent : Node) : Prop where
  sound : p.Sound tops
  childFound : p.node? childId = some child
  parentFound : p.node? parentId = some parent
  member : childId ∈ parent.dependents

/-- The parent after the merge. -/
def mergedParent (childId : NodeId) (child parent : Node) : Node :=
  { parent with
    query := (inlineInto childId child.query parent.query).1
    dependents := (parent.dependents.filter fun d => d ≠ childId) ++ child.dependents
    tables := child.tables.entries.foldl (fun m entry => m.append entry.1 entry.2)
      (parent.tables.erase childId)
    filters := child.filters.entries.foldl (fun m entry => m.append entry.1 entry.2)
      (parent.filters.erase childId)
    listens := if (parent.dependents.filter fun d => d ≠ childId) ++ child.dependents = [] then []
      else parent.listens }

namespace Merging

variable {p : Plan} {tops : List NodeId} {childId parentId : NodeId} {child parent : Node}

theorem ends (merging : Merging p tops childId parentId child parent) :
    parentId < childId ∧ child.parents = [parentId] ∧ child.broadcasts = parent.listens := by
  obtain ⟨m, there, below, only, heard⟩ := merging.sound.reads merging.parentFound merging.member
  cases merging.childFound.symm.trans there
  exact ⟨below, only, heard⟩

theorem folding (merging : Merging p tops childId parentId child parent) :
    Folding p childId parentId child parent :=
  ⟨merging.sound.acyclic, merging.childFound, merging.parentFound, merging.ends.2.1⟩

theorem different (merging : Merging p tops childId parentId child parent) :
    childId ≠ parentId := merging.folding.different

theorem queue (merging : Merging p tops childId parentId child parent) :
    ∃ queue, parent.listens = [queue] :=
  (merging.sound.consistent merging.parentFound).hears (List.ne_nil_of_mem merging.member)

/-- The dependents of the child are no others than its own. -/
theorem apart (merging : Merging p tops childId parentId child parent) {d : NodeId}
    (member : d ∈ child.dependents) : d ≠ childId ∧ d ≠ parentId ∧ d ∉ parent.dependents := by
  have edge : p.Edge childId d := ⟨child, merging.childFound, member⟩
  have below := merging.sound.lt_of_edge edge
  have above := merging.ends.1
  refine ⟨?_, ?_, fun shared => ?_⟩
  · rintro rfl
    exact irrefl_of (· < ·) d below
  · rintro rfl
    exact irrefl_of (· < ·) d (trans_of (· < ·) above below)
  · have same := merging.sound.edge_unique edge ⟨parent, merging.parentFound, shared⟩
    exact irrefl_of (· < ·) parentId (same ▸ above)

theorem distinct (merging : Merging p tops childId parentId child parent) :
    ((parent.dependents.filter fun d => d ≠ childId) ++ child.dependents).Nodup := by
  refine List.nodup_append.mpr ⟨(merging.sound.consistent merging.parentFound).distinct.filter _,
    (merging.sound.consistent merging.childFound).distinct, ?_⟩
  rintro d own _ inherited rfl
  exact (merging.apart inherited).2.2 (List.mem_filter.mp own).1

/-- A child that is read at all is read once, and its own placeholders come in place of it. -/
theorem inlined (merging : Merging p tops childId parentId child parent)
    (replaced : (inlineInto childId child.query parent.query).2 ≠ 0) :
    (inlineInto childId child.query parent.query).2 = 1
      ∧ (inlineInto childId child.query parent.query).1.placeholders.Perm
        ((parent.query.placeholders.filter fun ref => ref.node ≠ childId) ++ child.query.placeholders) := by
  have once := (merging.sound.consistent merging.parentFound).read_once merging.member
  unfold inlineInto at replaced ⊢
  split at replaced
  · rename_i none
    rw [if_pos none]
    exact Query.placeholders_fillMarkers child.query once replaced
  · rename_i some
    rw [if_neg some]
    exact Query.placeholders_fillTables child.query once some

/-- Without a place for the child nothing changes. -/
theorem merge_error (merging : Merging p tops childId parentId child parent)
    (unread : (inlineInto childId child.query parent.query).2 = 0) :
    merge childId parentId p = (.error (.placeholderNotFound childId parentId), p) :=
  merging.folding.merge_unread unread

/-- The parent with the child inlined, still listening as before. -/
private def draft (childId : NodeId) (child parent : Node) : Node :=
  { mergedParent childId child parent with listens := parent.listens }

private theorem foldedParent_eq_draft (merging : Merging p tops childId parentId child parent)
    (replaced : (inlineInto childId child.query parent.query).2 ≠ 0) :
    foldedParent childId child parent = draft childId child parent := by
  have fresh := (List.nodup_append.mp merging.distinct).2.2
  have once := (merging.sound.consistent merging.childFound).distinct
  have appended : child.dependents.foldl Node.addOnce (parent.dependents.filter fun d => d ≠ childId)
      = (parent.dependents.filter fun d => d ≠ childId) ++ child.dependents :=
    Node.foldl_addOnce_eq once fun d member own => fresh d own d member rfl
  unfold foldedParent
  rw [(merging.inlined replaced).1, foldl_addDependent]
  unfold Node.removeDependent
  rw [appended]
  rfl

/-- What a dependent of the child becomes. -/
private theorem handOver_eq (merging : Merging p tops childId parentId child parent)
    (queue : QueueId) {d : NodeId} {n : Node} (member : d ∈ child.dependents)
    (found : p.node? d = some n) : handOver child parentId (some queue) n
      = { n with parents := [parentId], broadcasts := [queue] } := by
  obtain ⟨m, there, _, only, broadcasts⟩ := merging.sound.reads merging.childFound member
  cases found.symm.trans there
  have named : child.id = childId := merging.sound.named merging.childFound
  have quiet : child.listens.filter (fun q => !child.listens.contains q) = [] := by
    rw [List.filter_eq_nil_iff]
    intro q listens
    simpa using listens
  unfold handOver
  simp only [Node.replaceParent, Node.addBroadcast, only, named, broadcasts, quiet]
  simp [Node.addOnce]

end Merging

/-- The nodes of a plan after a merge. -/
structure Merged (p : Plan) (childId parentId : NodeId) (child parent : Node)
    (nodes : AscendingMap NodeId Node) : Prop where
  ordered : nodes.Ordered
  gone : nodes.find? childId = none
  merged : nodes.find? parentId = some (mergedParent childId child parent)
  moved : ∀ {d n}, d ∈ child.dependents → p.node? d = some n →
    nodes.find? d = some { n with parents := [parentId], broadcasts := parent.listens }
  other : ∀ {id}, id ≠ childId → id ≠ parentId → id ∉ child.dependents →
    nodes.find? id = p.node? id

namespace Merging

variable {p : Plan} {tops : List NodeId} {childId parentId : NodeId} {child parent : Node}

private theorem childQueue_eq (merging : Merging p tops childId parentId child parent) {queue : QueueId}
    (heard : parent.listens = [queue]) : childQueue? child parent = some queue := by
  unfold childQueue?
  rw [merging.ends.2.2, heard]
  simp

private theorem moved_eq (merging : Merging p tops childId parentId child parent)
    {nodes : AscendingMap NodeId Node} (folded : Folded p childId parentId child parent nodes) {d : NodeId}
    {n : Node} (member : d ∈ child.dependents) (found : p.node? d = some n) :
    nodes.find? d = some { n with parents := [parentId], broadcasts := parent.listens } := by
  obtain ⟨queue, heard⟩ := merging.queue
  rw [folded.moved member found, merging.childQueue_eq heard, merging.handOver_eq queue member found, heard]

/-- Every dependent the parent has by now signals it on the queue it listens on. -/
private theorem signals (merging : Merging p tops childId parentId child parent)
    {nodes : AscendingMap NodeId Node} (folded : Folded p childId parentId child parent nodes) {d : NodeId}
    (member : d ∈ (draft childId child parent).dependents) :
    ∃ n, nodes.find? d = some n ∧ n.broadcasts = parent.listens := by
  rcases List.mem_append.mp member with own | inherited
  · obtain ⟨dependent, notChild⟩ := List.mem_filter.mp own
    obtain ⟨n, found, below, _, broadcasts⟩ := merging.sound.reads merging.parentFound dependent
    have unmoved : d ∉ child.dependents := fun shared => (merging.apart shared).2.2 dependent
    refine ⟨n, (folded.other (of_decide_eq_true notChild) ?_ unmoved).trans found, broadcasts⟩
    rintro rfl
    exact irrefl_of (· < ·) d below
  · obtain ⟨n, found, _⟩ := merging.sound.reads merging.childFound inherited
    exact ⟨_, merging.moved_eq folded inherited found, rfl⟩

/-- The parent stops listening when it reads nothing any more. -/
private theorem listening_eq (merging : Merging p tops childId parentId child parent)
    {nodes : AscendingMap NodeId Node} (folded : Folded p childId parentId child parent nodes) :
    listening (draft childId child parent) nodes = mergedParent childId child parent := by
  have hears : parent.listens.filter
      (((draft childId child parent).dependents.filterMap nodes.find?).flatMap Node.broadcasts).contains
      = if (draft childId child parent).dependents = [] then [] else parent.listens := by
    by_cases none : (draft childId child parent).dependents = []
    · rw [none, if_pos rfl]
      exact List.filter_eq_nil_iff.mpr fun _ _ => by simp
    · obtain ⟨d, member⟩ := List.exists_mem_of_ne_nil _ none
      obtain ⟨n, found, broadcasts⟩ := merging.signals folded member
      rw [if_neg none]
      refine List.filter_eq_self.mpr fun queue hears => ?_
      rw [List.contains_iff_mem, List.mem_flatMap]
      exact ⟨n, List.mem_filterMap.mpr ⟨d, member, found⟩, broadcasts ▸ hears⟩
  exact congrArg (fun listens => { mergedParent childId child parent with listens }) hears

/-- Where the child has a place, the merge succeeds. -/
theorem merge_ok (merging : Merging p tops childId parentId child parent)
    (replaced : (inlineInto childId child.query parent.query).2 ≠ 0) :
    ∃ nodes, merge childId parentId p = (.ok child.dependents, { p with nodes })
      ∧ Merged p childId parentId child parent nodes := by
  obtain ⟨queue, heard⟩ := merging.queue
  have signalled : ((childQueue? child parent).isNone && !child.dependents.isEmpty) = false := by
    rw [merging.childQueue_eq heard]
    rfl
  obtain ⟨nodes, done, folded⟩ := merging.folding.merge_folds replaced signalled
  refine ⟨nodes, done, folded.ordered, folded.gone, ?_, merging.moved_eq folded, folded.other⟩
  rw [folded.folded, merging.foldedParent_eq_draft replaced, merging.listening_eq folded]

end Merging

end ApproxQuery.Plan
