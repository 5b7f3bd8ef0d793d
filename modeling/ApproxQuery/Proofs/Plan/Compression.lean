import ApproxQuery.Proofs.Plan.Grafted
import ApproxQuery.Proofs.Plan.Merging

/-! Compression keeps a plan sound and what its top means, merge by merge. -/
namespace ApproxQuery.Plan

open Relation

variable {p p' : Plan} {tops : List NodeId} {childId parentId : NodeId} {child parent : Node}

theorem isAggregateLevel_inlineInto (childId : NodeId) (child parent : Query) :
    (inlineInto childId child parent).1.isAggregateLevel = parent.isAggregateLevel := by
  unfold inlineInto
  split
  · exact Query.isAggregateLevel_fillMarkers childId child parent
  · exact Query.isAggregateLevel_fillTables childId child parent

namespace Merging

/-- What is merged aggregates, so it is no marker. -/
theorem unmarked (merging : Merging p tops childId parentId child parent) : child.query.marker? = none := by
  have level := (merging.sound.aggregates merging.childFound
    (merging.sound.not_top merging.parentFound merging.member)).1
  cases marker : child.query.marker? with
  | none => rfl
  | some node =>
    rw [Query.not_isAggregateLevel_of_marker marker] at level
    cases level

/-- The parent records the placeholders it keeps and those of the child. -/
private theorem recorded_mergedParent (merging : Merging p tops childId parentId child parent)
    (replaced : (inlineInto childId child.query parent.query).2 ≠ 0) (d : NodeId) :
    ((mergedParent childId child parent).recordedRefs d).Perm
      ((mergedParent childId child parent).query.placeholders.filter fun ref => ref.node = d) := by
  have own := merging.sound.consistent merging.parentFound
  have inner := merging.sound.consistent merging.childFound
  have inlined := (merging.inlined replaced).2
  have appended : (mergedParent childId child parent).recordedRefs d
      = ((parent.tables.erase childId).find? d).getD [] ++ (child.tables.find? d).getD []
        ++ (((parent.filters.erase childId).find? d).getD []
          ++ (child.filters.find? d).getD []).map SlotRef.ref := by
    simp only [mergedParent, Node.recordedRefs, AscendingMap.getD_foldl_append _ inner.tables,
      AscendingMap.getD_foldl_append _ inner.filters]
  have kept : (((parent.tables.erase childId).find? d).getD []
      ++ (((parent.filters.erase childId).find? d).getD []).map SlotRef.ref).Perm
      ((parent.query.placeholders.filter fun ref => ref.node ≠ childId).filter fun ref =>
        ref.node = d) := by
    rw [AscendingMap.find?_erase, AscendingMap.find?_erase, List.filter_filter]
    by_cases gone : childId = d
    · subst gone
      simp
    · rw [if_neg gone, if_neg gone]
      refine (own.recorded d).trans (List.Perm.of_eq (List.filter_congr fun ref _ => ?_))
      by_cases here : ref.node = d
      · simp [here, Ne.symm gone]
      · simp [here]
  have regrouped (a b c e : List PlaceholderRef) : (a ++ b ++ (c ++ e)).Perm (a ++ c ++ (b ++ e)) := by
    simp only [List.append_assoc]
    exact List.Perm.append_left _ (List.perm_append_comm_assoc b c e)
  rw [appended, List.map_append]
  refine List.Perm.trans ?_ (inlined.filter _).symm
  rw [List.filter_append]
  exact (regrouped _ _ _ _).trans (kept.append (inner.recorded d))

/-- The parent records what its new query reads. -/
private theorem consistent_mergedParent (merging : Merging p tops childId parentId child parent)
    (replaced : (inlineInto childId child.query parent.query).2 ≠ 0) :
    (mergedParent childId child parent).Consistent := by
  have own := merging.sound.consistent merging.parentFound
  have inner := merging.sound.consistent merging.childFound
  have inlined := (merging.inlined replaced).2
  constructor
  case distinct => exact merging.distinct
  case placed =>
    refine (inlined.map _).trans ?_
    rw [List.map_append]
    refine List.Perm.append ?_ inner.placed
    have commute := (own.placed.filter fun d => d ≠ childId)
    rw [List.filter_map] at commute
    exact commute
  case recorded => exact merging.recorded_mergedParent replaced
  case tables => exact AscendingMap.ordered_foldl_append _ (own.tables.erase childId)
  case filters => exact AscendingMap.ordered_foldl_append _ (own.filters.erase childId)
  case tableKeys =>
    intro d member
    rcases (AscendingMap.mem_keys_foldl_append (own.tables.erase childId)).mp member with old | new
    · obtain ⟨kept, among⟩ := own.tables.mem_keys_erase.mp old
      exact List.mem_append_left _ (List.mem_filter.mpr ⟨own.tableKeys d among, decide_eq_true kept⟩)
    · exact List.mem_append_right _ (inner.tableKeys d new)
  case filterKeys =>
    intro d member
    rcases (AscendingMap.mem_keys_foldl_append (own.filters.erase childId)).mp member with old | new
    · obtain ⟨kept, among⟩ := own.filters.mem_keys_erase.mp old
      exact List.mem_append_left _ (List.mem_filter.mpr ⟨own.filterKeys d among, decide_eq_true kept⟩)
    · exact List.mem_append_right _ (inner.filterKeys d new)
  case deaf => exact fun none => if_pos none
  case hears =>
    intro some
    obtain ⟨queue, heard⟩ := merging.queue
    exact ⟨queue, (if_neg some).trans heard⟩
  case progressive =>
    intro progressive
    have none := own.progressive progressive
    exact absurd merging.member (none ▸ List.not_mem_nil)

end Merging

namespace Merged

variable {nodes : AscendingMap NodeId Node}

/-- A node after the merge is the parent, or was there with other ends of edges at most. -/
theorem origin (merging : Merging p tops childId parentId child parent)
    (merged : Merged p childId parentId child parent nodes) {id : NodeId} {n : Node}
    (found : ({ p with nodes } : Plan).node? id = some n) :
    id = parentId ∧ n = mergedParent childId child parent
      ∨ id ≠ parentId ∧ id ≠ childId ∧ ∃ m parents broadcasts, p.node? id = some m
        ∧ n = { m with parents, broadcasts }
        ∧ (id ∈ child.dependents → parents = [parentId] ∧ broadcasts = parent.listens)
        ∧ (id ∉ child.dependents → parents = m.parents ∧ broadcasts = m.broadcasts) := by
  have found' : nodes.find? id = some n := found
  by_cases isParent : id = parentId
  · subst isParent
    exact .inl ⟨rfl, Option.some.inj (found'.symm.trans merged.merged)⟩
  · have notChild : id ≠ childId := by
      rintro rfl
      exact nomatch found'.symm.trans merged.gone
    refine .inr ⟨isParent, notChild, ?_⟩
    by_cases moved : id ∈ child.dependents
    · obtain ⟨m, there, _⟩ := merging.sound.reads merging.childFound moved
      have same := Option.some.inj (found'.symm.trans (merged.moved moved there))
      exact ⟨m, _, _, there, same, fun _ => ⟨rfl, rfl⟩, fun unmoved => absurd moved unmoved⟩
    · have there := (merged.other notChild isParent moved).symm.trans found'
      exact ⟨n, n.parents, n.broadcasts, there, rfl, fun inherited => absurd inherited moved,
        fun _ => ⟨rfl, rfl⟩⟩

/-- A node other than the child is still there, and reads what it read but for the child. -/
theorem keeps (merging : Merging p tops childId parentId child parent)
    (merged : Merged p childId parentId child parent nodes) {id : NodeId} {m : Node}
    (there : p.node? id = some m) (notChild : id ≠ childId) :
    ∃ n, ({ p with nodes } : Plan).node? id = some n ∧ n.scratch = m.scratch
      ∧ (id ∉ child.dependents → n.parents = m.parents ∧ n.broadcasts = m.broadcasts)
      ∧ ∀ d ∈ m.dependents, d ≠ childId → d ∈ n.dependents := by
  by_cases isParent : id = parentId
  · subst isParent
    cases merging.parentFound.symm.trans there
    refine ⟨_, merged.merged, rfl, fun _ => ⟨rfl, rfl⟩, fun d member other => ?_⟩
    exact List.mem_append_left _ (List.mem_filter.mpr ⟨member, decide_eq_true other⟩)
  · by_cases moved : id ∈ child.dependents
    · exact ⟨_, merged.moved moved there, rfl, fun unmoved => absurd moved unmoved,
        fun _ member _ => member⟩
    · exact ⟨m, (merged.other notChild isParent moved).trans there, rfl, fun _ => ⟨rfl, rfl⟩,
        fun _ member _ => member⟩

/-- What another node than the parent reads was neither merged nor moved. -/
private theorem untouched (merging : Merging p tops childId parentId child parent) {id d : NodeId}
    {m : Node} (there : p.node? id = some m) (notParent : id ≠ parentId) (notChild : id ≠ childId)
    (member : d ∈ m.dependents) : d ≠ childId ∧ d ∉ child.dependents := by
  have edge : p.Edge id d := ⟨m, there, member⟩
  constructor
  · rintro rfl
    exact notParent (merging.sound.edge_unique edge ⟨parent, merging.parentFound, merging.member⟩)
  · intro inherited
    exact notChild (merging.sound.edge_unique edge ⟨child, merging.childFound, inherited⟩)

private theorem reads (merging : Merging p tops childId parentId child parent)
    (merged : Merged p childId parentId child parent nodes) {id d : NodeId} {n : Node}
    (found : ({ p with nodes } : Plan).node? id = some n) (member : d ∈ n.dependents) :
    ∃ m, ({ p with nodes } : Plan).node? d = some m ∧ id < d ∧ m.parents = [id]
      ∧ m.broadcasts = n.listens := by
  rcases merged.origin merging found with ⟨rfl, rfl⟩ | ⟨notParent, notChild, m, _, _, there, rfl, _⟩
  · have listens : (mergedParent childId child parent).listens = parent.listens :=
      if_neg (List.ne_nil_of_mem member)
    rcases List.mem_append.mp member with own | inherited
    · obtain ⟨dependent, kept⟩ := List.mem_filter.mp own
      obtain ⟨m, there, below, only, heard⟩ := merging.sound.reads merging.parentFound dependent
      obtain ⟨n, found', _, ends, _⟩ := merged.keeps merging there (of_decide_eq_true kept)
      obtain ⟨parents, broadcasts⟩ := ends fun shared => (merging.apart shared).2.2 dependent
      exact ⟨n, found', below, parents.trans only, (broadcasts.trans heard).trans listens.symm⟩
    · obtain ⟨m, there, below, _⟩ := merging.sound.reads merging.childFound inherited
      exact ⟨_, merged.moved inherited there, trans_of (· < ·) merging.ends.1 below, rfl,
        listens.symm⟩
  · obtain ⟨m', there', below, only, heard⟩ := merging.sound.reads there member
    obtain ⟨other, unmoved⟩ := untouched merging there notParent notChild member
    obtain ⟨n, found', _, ends, _⟩ := merged.keeps merging there' other
    obtain ⟨parents, broadcasts⟩ := ends unmoved
    exact ⟨n, found', below, parents.trans only, broadcasts.trans heard⟩

private theorem below (merging : Merging p tops childId parentId child parent)
    (merged : Merged p childId parentId child parent nodes) {id : NodeId} {n : Node}
    (found : ({ p with nodes } : Plan).node? id = some n) (notTop : id ∉ tops) :
    ∃ up m, n.parents = [up] ∧ ({ p with nodes } : Plan).node? up = some m ∧ id ∈ m.dependents := by
  have old {m : Node} (there : p.node? id = some m) (notChild : id ≠ childId)
      (unmoved : id ∉ child.dependents) :
      ∃ up m', m.parents = [up] ∧ ({ p with nodes } : Plan).node? up = some m' ∧ id ∈ m'.dependents := by
    obtain ⟨up, above, only, there', member⟩ := merging.sound.below there notTop
    have other : up ≠ childId := by
      rintro rfl
      cases merging.childFound.symm.trans there'
      exact unmoved member
    obtain ⟨m', found', _, _, reads⟩ := merged.keeps merging there' other
    exact ⟨up, m', only, found', reads id member notChild⟩
  rcases merged.origin merging found with ⟨rfl, rfl⟩ | ⟨_, notChild, m, _, _, there, rfl, moved, unmoved⟩
  · have result := old merging.parentFound merging.different.symm fun member =>
      (merging.apart member).2.1 rfl
    exact result
  · by_cases member : id ∈ child.dependents
    · exact ⟨parentId, _, (moved member).1, merged.merged, List.mem_append_right _ member⟩
    · obtain ⟨up, m', only, rest⟩ := old there notChild member
      exact ⟨up, m', (unmoved member).1.trans only, rest⟩

private theorem stored (merging : Merging p tops childId parentId child parent)
    (replaced : (inlineInto childId child.query parent.query).2 ≠ 0)
    (merged : Merged p childId parentId child parent nodes) {id : NodeId} {n : Node}
    {ref : PlaceholderRef} (found : ({ p with nodes } : Plan).node? id = some n)
    (member : ref ∈ n.query.placeholders) :
    ∃ m, ({ p with nodes } : Plan).node? ref.node = some m ∧ ref.table = m.scratch := by
  have old : ref.node ≠ childId ∧ ∃ m, p.node? ref.node = some m ∧ ref.table = m.scratch := by
    rcases merged.origin merging found with ⟨_, rfl⟩ | ⟨notParent, notChild, m, _, _, there, rfl, _⟩
    · have inlined := (merging.inlined replaced).2.mem_iff.mp member
      rcases List.mem_append.mp inlined with own | inherited
      · obtain ⟨among, other⟩ := List.mem_filter.mp own
        exact ⟨of_decide_eq_true other, merging.sound.stored merging.parentFound among⟩
      · have dependent := (merging.sound.consistent merging.childFound).mem_dependents.mpr
          ⟨ref, inherited, rfl⟩
        exact ⟨(merging.apart dependent).1, merging.sound.stored merging.childFound inherited⟩
    · have dependent := (merging.sound.consistent there).mem_dependents.mpr ⟨ref, member, rfl⟩
      exact ⟨(untouched merging there notParent notChild dependent).1,
        merging.sound.stored there member⟩
  obtain ⟨other, m, there, same⟩ := old
  obtain ⟨n', found', scratch, _⟩ := merged.keeps merging there other
  exact ⟨n', found', same.trans scratch.symm⟩

/-- A node has the scratch table it had, and listens on nothing new. -/
theorem before (merging : Merging p tops childId parentId child parent)
    (merged : Merged p childId parentId child parent nodes) {id : NodeId} {n : Node}
    (found : ({ p with nodes } : Plan).node? id = some n) :
    ∃ m, p.node? id = some m ∧ n.scratch = m.scratch ∧ ∀ queue ∈ n.listens, queue ∈ m.listens := by
  rcases merged.origin merging found with ⟨rfl, rfl⟩ | ⟨_, _, m, _, _, there, rfl, _⟩
  · refine ⟨parent, merging.parentFound, rfl, fun queue member => ?_⟩
    have listens : (mergedParent childId child parent).listens = if _ then _ else _ := rfl
    rw [listens] at member
    split at member
    · cases member
    · exact member
  · exact ⟨m, there, rfl, fun _ member => member⟩

end Merged

/-- A merge keeps the plan sound. -/
theorem Sound.merged (merging : Merging p tops childId parentId child parent)
    (replaced : (inlineInto childId child.query parent.query).2 ≠ 0)
    {nodes : AscendingMap NodeId Node} (merged : Merged p childId parentId child parent nodes) :
    ({ p with nodes } : Plan).Sound tops where
  ordered := merged.ordered
  named := by
    intro id n found
    rcases merged.origin merging found with ⟨rfl, rfl⟩ | ⟨_, _, m, _, _, there, rfl, _⟩
    · have same := merging.sound.named merging.parentFound
      exact same
    · have same := merging.sound.named there
      exact same
  consistent := by
    intro id n found
    rcases merged.origin merging found with ⟨_, rfl⟩ | ⟨_, _, m, _, _, there, rfl, _⟩
    · exact merging.consistent_mergedParent replaced
    · have before := merging.sound.consistent there
      exact ⟨before.distinct, before.placed, before.recorded, before.tables, before.filters,
        before.tableKeys, before.filterKeys, before.deaf, before.hears, before.progressive⟩
  top := by
    intro id isTop
    obtain ⟨m, there, rootless, silent⟩ := merging.sound.top id isTop
    have notChild : id ≠ childId := by
      rintro rfl
      exact merging.sound.not_top merging.parentFound merging.member isTop
    obtain ⟨n, found, _, ends, _⟩ := merged.keeps merging there notChild
    obtain ⟨parents, broadcasts⟩ := ends fun member =>
      merging.sound.not_top merging.childFound member isTop
    exact ⟨n, found, parents.trans rootless, broadcasts.trans silent⟩
  below := merged.below merging
  reads := merged.reads merging
  stored := merged.stored merging replaced
  scratch := by
    intro a b n m foundA foundB same
    obtain ⟨n', thereA, scratchA, _⟩ := merged.before merging foundA
    obtain ⟨m', thereB, scratchB, _⟩ := merged.before merging foundB
    exact merging.sound.scratch thereA thereB ((scratchA.symm.trans same).trans scratchB)
  queues := by
    intro a b n m queue foundA foundB left right
    obtain ⟨n', thereA, _, listensA⟩ := merged.before merging foundA
    obtain ⟨m', thereB, _, listensB⟩ := merged.before merging foundB
    exact merging.sound.queues thereA thereB (listensA queue left) (listensB queue right)
  aggregates := by
    intro id n found notTop
    rcases merged.origin merging found with ⟨rfl, rfl⟩ | ⟨_, _, m, _, _, there, rfl, _⟩
    · obtain ⟨level, kind⟩ := merging.sound.aggregates merging.parentFound notTop
      exact ⟨(isAggregateLevel_inlineInto childId child.query parent.query).trans level, kind⟩
    · have level := merging.sound.aggregates there notTop
      exact level

section Meaning

/-- The parent's new query means what the old one did, when every node means what it did. -/
private theorem Merging.graft_inlined (merging : Merging p tops childId parentId child parent)
    (replaced : (inlineInto childId child.query parent.query).2 ≠ 0) {known inner known' : NodeId → Query}
    (own : ∀ d ∈ parent.dependents, d ≠ childId → known' d = known d)
    (inherited : ∀ d ∈ child.dependents, known' d = inner d)
    (filled : known childId
      = child.query.graft (among child.dependents inner) (among child.dependents inner)) :
    (mergedParent childId child parent).query.graft
        (among (mergedParent childId child parent).dependents known')
        (among (mergedParent childId child parent).dependents known')
      = parent.query.graft (among parent.dependents known) (among parent.dependents known) := by
  -- Both sides are grafts of what is known of the new dependents and of the child.
  let all (d : NodeId) : Option Query := if d = childId then some (known childId)
    else among (mergedParent childId child parent).dependents known' d
  have parentReads {d} (member : d ∈ parent.dependents) :
      all d = among parent.dependents known d := by
    by_cases isChild : d = childId
    · subst isChild
      exact (if_pos rfl).trans (if_pos member).symm
    · have kept : d ∈ (mergedParent childId child parent).dependents :=
        List.mem_append_left _ (List.mem_filter.mpr ⟨member, decide_eq_true isChild⟩)
      refine (if_neg isChild).trans ((if_pos kept).trans ?_)
      rw [own d member isChild]
      exact (if_pos member).symm
  have childReads {d} (member : d ∈ child.dependents) : all d = among child.dependents inner d := by
    refine (if_neg (merging.apart member).1).trans ((if_pos (List.mem_append_right _ member)).trans ?_)
    rw [inherited d member]
    exact (if_pos member).symm
  have mergedReads {d} (member : d ∈ (mergedParent childId child parent).dependents) :
      all d = among (mergedParent childId child parent).dependents known' d := by
    refine if_neg ?_
    rintro rfl
    rcases List.mem_append.mp member with dropped | inner
    · exact of_decide_eq_true (List.mem_filter.mp dropped).2 rfl
    · exact (merging.apart inner).1 rfl
  have regraft {n : Node} (consistent : n.Consistent) {some : NodeId → Option Query}
      (same : ∀ {d}, d ∈ n.dependents → all d = some d) :
      n.query.graft some some = n.query.graft all all :=
    Query.graft_congr fun ref member =>
      have reads := same (consistent.mem_dependents.mpr ⟨ref, member, rfl⟩)
      ⟨reads.symm, reads.symm⟩
  have childFilled : all childId = some (child.query.graft all all) := by
    refine (if_pos rfl).trans (congrArg some ?_)
    exact filled.trans (regraft (merging.sound.consistent merging.childFound) childReads)
  rw [regraft (merging.consistent_mergedParent replaced) mergedReads,
    regraft (merging.sound.consistent merging.parentFound) parentReads]
  have inlined : (mergedParent childId child parent).query
      = (inlineInto childId child.query parent.query).1 := rfl
  rw [inlined]
  unfold inlineInto
  split
  · exact Query.graft_fillMarkers childFilled merging.unmarked parent.query
  · exact Query.graft_fillTables childFilled parent.query

/-- What is not merged means what it meant. -/
theorem Merged.expands (merging : Merging p tops childId parentId child parent)
    (replaced : (inlineInto childId child.query parent.query).2 ≠ 0)
    {nodes : AscendingMap NodeId Node} (merged : Merged p childId parentId child parent nodes)
    (id : NodeId) : ∀ q, p.Expands id q → id ≠ childId → ({ p with nodes } : Plan).Expands id q := by
  -- A merge reaches two edges deep, and so does the induction.
  induction id using merging.sound.founded.transGen.induction with
  | _ id ih =>
    intro q expands notChild
    obtain ⟨n, found⟩ := expands.found
    obtain ⟨known, rfl, below⟩ := expands.known found
    have edge {d} (member : d ∈ n.dependents) : p.Edge id d := ⟨n, found, member⟩
    by_cases isParent : id = parentId
    · subst isParent
      cases merging.parentFound.symm.trans found
      obtain ⟨inner, filled, inherited⟩ := (below childId merging.member).known merging.childFound
      let known' (d : NodeId) : Query := if d ∈ child.dependents then inner d else known d
      have ownMeans (d) (member : d ∈ parent.dependents) (other : d ≠ childId) :
          known' d = known d := if_neg fun shared => (merging.apart shared).2.2 member
      have innerMeans (d) (member : d ∈ child.dependents) : known' d = inner d := if_pos member
      rw [← merging.graft_inlined replaced ownMeans innerMeans filled]
      refine Expands.node known' merged.merged fun d member => ?_
      rcases List.mem_append.mp member with own | reads
      · obtain ⟨dependent, kept⟩ := List.mem_filter.mp own
        have other := of_decide_eq_true kept
        rw [ownMeans d dependent other]
        exact ih d (.single (edge dependent)) _ (below d dependent) other
      · rw [innerMeans d reads]
        have path : TransGen p.Edge id d :=
          .tail (.single (edge merging.member)) ⟨child, merging.childFound, reads⟩
        exact ih d (transGen_swap.mp path) _ (inherited d reads) (merging.apart reads).1
    · have moved : ∃ parents broadcasts, ({ p with nodes } : Plan).node? id
          = some { n with parents, broadcasts } := by
        by_cases member : id ∈ child.dependents
        · exact ⟨_, _, merged.moved member found⟩
        · exact ⟨n.parents, n.broadcasts, (merged.other notChild isParent member).trans found⟩
      obtain ⟨parents, broadcasts, there⟩ := moved
      have same := Expands.node known there fun d member =>
        ih d (.single (edge member)) _ (below d member)
          (Merged.untouched merging found isParent notChild member).1
      exact same

end Meaning

section Compressing

/-- What is merged is a node that its only parent reads. -/
theorem Sound.merging (sound : p.Sound tops) (target : p.mergeTarget? childId = some parentId) :
    ∃ child parent, Merging p tops childId parentId child parent := by
  obtain ⟨child, parent, folding⟩ := sound.acyclic.folding target
  obtain ⟨m, there, member⟩ := folding.edge
  cases folding.parentFound.symm.trans there
  exact ⟨child, parent, sound, folding.childFound, folding.parentFound, member⟩

/-- A merge keeps the plan, or fails and leaves it as it was. -/
theorem Sound.keeps_merge (sound : p.Sound tops) (target : p.mergeTarget? childId = some parentId) :
    Keeps tops p (Plan.merge childId parentId p).2 := by
  obtain ⟨child, parent, merging⟩ := sound.merging target
  by_cases unread : (inlineInto childId child.query parent.query).2 = 0
  · rw [merging.merge_error unread]
    exact sound.keeps_self
  · obtain ⟨nodes, done, merged⟩ := merging.merge_ok unread
    rw [done]
    refine ⟨rfl, rfl, Sound.merged merging unread merged, fun {top q} isTop means => ?_⟩
    refine Merged.expands merging unread merged top q means ?_
    rintro rfl
    exact sound.not_top merging.parentFound merging.member isTop

/-- An attempt to merge a node that may be merged, whether it succeeds or not. -/
def MergeStep (p p' : Plan) : Prop :=
  ∃ childId parentId, p.mergeTarget? childId = some parentId ∧ (Plan.merge childId parentId p).2 = p'

private theorem plan_step (c : Compressing) (id : NodeId) (waiting : List NodeId) :
    (c.step id waiting).plan = c.plan ∨ MergeStep c.plan (c.step id waiting).plan := by
  unfold Compressing.step
  cases found : c.plan.node? id with
  | none => exact .inl (by simp [found])
  | some n =>
    simp only [found]
    split
    · rw [foldl_enqueue_eq]
      exact .inl rfl
    · rename_i parentId target
      have allowed : c.plan.mergeTarget? id = some parentId := by
        split at target
        · cases target
        · exact target
      refine .inr ⟨id, parentId, allowed, ?_⟩
      split
      · rename_i moved plan done
        rw [foldl_enqueue_eq, done]
      · rename_i e plan failed
        rw [failed]
        rfl

/-- A compression is a series of attempts to merge. -/
theorem merges_of_compress (p : Plan) : ReflTransGen MergeStep p p.compress.1 := by
  have run (fuel : Nat) (c : Compressing) :
      ReflTransGen MergeStep c.plan (Compressing.run fuel c).plan := by
    induction fuel generalizing c with
    | zero => exact .refl
    | succ fuel ih =>
      unfold Compressing.run
      cases c.waiting with
      | nil => exact .refl
      | cons id waiting =>
        rcases plan_step c id waiting with same | step
        · exact same ▸ ih (c.step id waiting)
        · exact .head step (ih _)
  unfold compress
  cases p.root with
  | none => exact .refl
  | some root =>
    exact run (p.rounds * p.rounds * p.rounds)
      ⟨p, p.leavesFrom p.rounds [root] [root], [], ⟨[], [], 0⟩⟩

/-- What the merges in sound plans preserve, compression preserves. -/
theorem Sound.compress_induction {P : Plan → Prop} (sound : p.Sound tops) (start : P p)
    (step : ∀ {p' childId parentId}, p'.Sound tops → p'.mergeTarget? childId = some parentId →
      P p' → P (Plan.merge childId parentId p').2) :
    p.compress.1.Sound tops ∧ P p.compress.1 := by
  have merges := p.merges_of_compress
  generalize p.compress.1 = done at merges
  induction merges with
  | refl => exact ⟨sound, start⟩
  | tail _ last ih =>
    obtain ⟨childId, parentId, target, rfl⟩ := last
    exact ⟨(ih.1.keeps_merge target).sound, step ih.1 target ih.2⟩

/-- Compression keeps a sound plan. -/
theorem Sound.keeps_compress (sound : p.Sound tops) : Keeps tops p p.compress.1 := by
  have kept := sound.compress_induction (P := Keeps tops p) sound.keeps_self
    fun sound' target before => before.trans (sound'.keeps_merge target)
  exact kept.2

end Compressing

end ApproxQuery.Plan
