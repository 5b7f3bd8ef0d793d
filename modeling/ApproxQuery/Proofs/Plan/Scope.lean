import ApproxQuery.Proofs.Plan.Rewrites
import ApproxQuery.Proofs.Query.Validation

/-! Every query of a reachable plan can be evaluated on its own: whatever names a table is bound
inside. What is cut out has no free names, and rewrites keep what nodes mean. -/
namespace ApproxQuery.Plan

variable {p : Plan} {tops : List NodeId} {id : NodeId} {n : Node}

theorem freeRefs_of_among {ids : List NodeId} {known : NodeId → Query} {d : NodeId} {content : Query}
    (closed : ∀ d ∈ ids, (known d).freeRefs = []) (put : among ids known d = some content) :
    content.freeRefs = [] := by
  unfold among at put
  split at put
  · rename_i member
    exact Option.some.inj put ▸ closed d member
  · cases put

/-- With what has no free names put in, a query has the free names that it had. -/
theorem freeRefs_graft_among {ids more : List NodeId} {known : NodeId → Query}
    (closed : ∀ d, d ∈ ids ∨ d ∈ more → (known d).freeRefs = []) (q : Query) :
    (q.graft (among ids known) (among more known)).freeRefs = [] ↔ q.freeRefs = [] := by
  have same (name : String) : name ∈ (q.graft (among ids known) (among more known)).freeRefs
      ↔ name ∈ q.freeRefs := by
    apply Query.mem_freeRefs_graft
    · exact fun d content => freeRefs_of_among fun d member => closed d (.inl member)
    · exact fun d content => freeRefs_of_among fun d member => closed d (.inr member)
  simp only [List.eq_nil_iff_forall_not_mem, same]

/-- Where no query has free names, none comes about by putting queries back. -/
theorem Grafted.freeRefs {tables slots : Node → List NodeId} {q : Query}
    (grafted : p.Grafted tables slots id q)
    (closed : ∀ {id n}, p.node? id = some n → n.query.freeRefs = []) : q.freeRefs = [] := by
  induction grafted with
  | node found _ ih => exact (freeRefs_graft_among ih _).mpr (closed found)

/-- Where all that is put back has no free names, a query has none either. -/
theorem freeRefs_of_grafted {tables slots : Node → List NodeId} {q : Query}
    (closed : ∀ {id q}, p.Grafted tables slots id q → q.freeRefs = [])
    (grafted : p.Grafted tables slots id q) (found : p.node? id = some n) : n.query.freeRefs = [] := by
  cases grafted with
  | node found' below =>
    cases found.symm.trans found'
    have whole := closed (.node found below)
    exact (freeRefs_graft_among (fun d member => closed (below d member)) _).mp whole

theorem exists_of_forall₂ {α β : Type} {R : α → β → Prop} {as : List α} {bs : List β}
    (each : List.Forall₂ R as bs) {a : α} (member : a ∈ as) : ∃ b ∈ bs, R a b := by
  induction each with
  | nil => cases member
  | cons head _ ih =>
    rcases List.mem_cons.mp member with rfl | later
    · exact ⟨_, List.mem_cons_self, head⟩
    · obtain ⟨b, inRest, related⟩ := ih later
      exact ⟨b, List.mem_cons_of_mem _ inRest, related⟩

/-- A query that is accepted has no free names. -/
theorem freeRefs_of_validate {q : Query} (accepted : q.validate = .ok ()) : q.freeRefs = [] :=
  Query.freeNames_eq_nil.mp (Query.validate_eq_ok.mp accepted).2.2

/-- Every node of a built plan restores a query without free names: the source, or a query that is
reached in it. -/
private theorem exists_restores_of_build {start : Plan} {q : Query} {root : NodeId}
    (empty : start.nodes = .empty) (closed : q.placeholders = []) (built : start.build q = .ok (root, p))
    (found : p.node? id = some n) : ∃ r, p.Restores id r ∧ r.freeRefs = [] := by
  have paired := (sound_of_build empty closed built).2.paired
  obtain ⟨unbuilt, accepted⟩ := of_build built
  obtain ⟨own, after⟩ := decomposed empty closed
  cases (build_eq unbuilt accepted).symm.trans built
  have ids : (decompose q start).2.nodeIds = _ := after.ids
  have listed : id ∈ (List.range' start.nextNode (q.cuts.length + 1)).map NodeId.mk :=
    ids ▸ paired.mem_nodeIds.mpr ⟨n, found⟩
  obtain ⟨index, inRange, rfl⟩ := List.mem_map.mp listed
  have recovered : ∃ cut : Query, cut.freeRefs = []
      ∧ ∃ r, (decompose q start).2.Restores ⟨index⟩ r ∧ r.Recovers cut := by
    rw [List.range'_succ] at inRange
    rcases List.mem_cons.mp inRange with rfl | later
    · exact ⟨q, freeRefs_of_validate accepted, after.whole⟩
    · obtain ⟨cut, inCuts, recovered⟩ := exists_of_forall₂ after.cut later
      have free := (Query.mem_cuts.mp inCuts).1.freeRefs
      exact ⟨_, (Query.freeRefs_rename cut none).trans free, recovered⟩
  obtain ⟨cut, free, r, restores, recovers⟩ := recovered
  refine ⟨r, ?_, List.eq_nil_of_subset_nil (free ▸ recovers.freeRefs_subset)⟩
  apply Grafted.of_nodes _ restores
  rfl

/-- No node of a built plan has free names. -/
theorem freeRefs_of_build {start : Plan} {q : Query} {root : NodeId} (empty : start.nodes = .empty)
    (closed : q.placeholders = []) (built : start.build q = .ok (root, p))
    (found : p.node? id = some n) : n.query.freeRefs = [] := by
  have sound := (sound_of_build empty closed built).2
  have each {id q} (restores : p.Restores id q) : q.freeRefs = [] := by
    have live : ∃ n, p.node? id = some n := by
      cases restores with
      | node found _ => exact ⟨_, found⟩
    obtain ⟨m, there⟩ := live
    obtain ⟨r, restores', nothing⟩ := exists_restores_of_build empty closed built there
    exact restores.unique restores' ▸ nothing
  obtain ⟨r, restores⟩ := sound.exists_restores found
  exact freeRefs_of_grafted each restores found

/-- What the nodes of a reachable plan mean has no free names. -/
theorem Reachable.freeRefs_of_expands (reachable : p.Reachable) :
    ∀ {id q}, p.Expands id q → q.freeRefs = [] := by
  refine reachable.induction (P := fun p => ∀ {id q}, p.Expands id q → q.freeRefs = []) ⟨?_, ?_⟩ ?_
  · intro p tops childId parentId child parent nodes merging replaced merged before id q expands
    obtain ⟨n, found⟩ := expands.found
    have live : (∃ m, p.node? id = some m) ∧ id ≠ childId := by
      rcases merged.origin merging found with ⟨rfl, _⟩ | ⟨_, other, m, _, _, there, _⟩
      · exact ⟨⟨parent, merging.parentFound⟩, merging.different.symm⟩
      · exact ⟨⟨m, there⟩, other⟩
    obtain ⟨⟨m, there⟩, other⟩ := live
    obtain ⟨r, meant⟩ := merging.sound.exists_expands there
    have same := expands.unique (merged.expands merging replaced id r meant other)
    exact same ▸ before meant
  · intro p tops b root scramble inlined nodes sound whole converts before id q expands
    obtain ⟨n, found⟩ := expands.found
    have live : (∃ m, p.node? id = some m) ∧ id ∉ b.members := by
      rcases converts.origin found with ⟨rfl, _⟩ | ⟨outside, there⟩
      · exact ⟨⟨root, converts.found⟩, sound.root_not_mem_members whole⟩
      · exact ⟨⟨n, there⟩, fun member => outside (List.mem_cons_of_mem _ member)⟩
    obtain ⟨⟨m, there⟩, outside⟩ := live
    obtain ⟨r, meant⟩ := sound.exists_expands there
    have same := expands.unique (sound.expands_converts whole converts meant outside)
    exact same ▸ before meant
  · intro start p q root empty closed built id r expands
    exact expands.freeRefs fun found => freeRefs_of_build empty closed built found

/-- No query of a reachable plan has free names. -/
theorem Reachable.freeRefs (reachable : p.Reachable) (found : p.node? id = some n) :
    n.query.freeRefs = [] := by
  obtain ⟨root, _, sound⟩ := reachable.sound
  obtain ⟨q, expands⟩ := sound.exists_expands found
  exact freeRefs_of_grafted reachable.freeRefs_of_expands expands found

end ApproxQuery.Plan
