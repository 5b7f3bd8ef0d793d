import ApproxQuery.Proofs.Plan.Blocks
import ApproxQuery.Proofs.Plan.Grafted
import ApproxQuery.Proofs.Query.Fillable

/-! Inlining a block gives what its root means, or fails on a node that is not fillable. -/
namespace ApproxQuery.Plan

section Nodes

variable {known : AscendingMap NodeId Query}

/-- A node's query with the known query of one dependent put in. -/
private def inlineOne (known : AscendingMap NodeId Query) (owner : NodeId) (q : Query) (d : NodeId) :
    Except PlanError Query :=
  match known.find? d with
  | none => .ok q
  | some content =>
    if q.tableSites d ≠ 0 then .ok (q.fillTables d content)
    else if q.markerSites d ≠ 0 then .ok (q.fillMarkers d content)
    else .error (.invalid (.placeholderMissing d owner))

private theorem inlineOne_spec (owner : NodeId) {d : NodeId} {q content : Query}
    {tables : NodeId → Option Query} (found : known.find? d = some content)
    (closed : content.placeholders = []) (here : tables d = some content)
    (once : (q.placeholders.filter fun ref => ref.node = d).length = 1) :
    inlineOne known owner q d = .error (.invalid (.placeholderMissing d owner)) ∧ ¬ q.Fillable
      ∨ ∃ r, inlineOne known owner q d = .ok r
        ∧ r.placeholders.Perm (q.placeholders.filter fun ref => ref.node ≠ d)
        ∧ r.graft tables tables = q.graft tables tables ∧ (q.Fillable → r.Fillable)
        ∧ (r.MarkersInSlots → q.MarkersInSlots) := by
  have filling := Query.Fillable.of_closed closed
  have same : tables d = some (content.graft tables tables) := by
    rw [Query.graft_of_placeholders_eq_nil closed, here]
  unfold inlineOne
  rw [found]
  by_cases inTables : q.tableSites d ≠ 0
  · have placed := (Query.placeholders_fillTables content once inTables).2
    rw [closed, List.append_nil] at placed
    exact .inr ⟨_, if_pos inTables, placed, Query.graft_fillTables same q,
      fun fillable => fillable.fillTables filling, Query.MarkersInSlots.of_fillTables⟩
  · by_cases inSlots : q.markerSites d ≠ 0
    · have placed := (Query.placeholders_fillMarkers content once inSlots).2
      rw [closed, List.append_nil] at placed
      exact .inr ⟨_, (if_neg inTables).trans (if_pos inSlots), placed,
        Query.graft_fillMarkers same filling.unmarked q, fun fillable => fillable.fillMarkers filling,
        Query.MarkersInSlots.of_fillMarkers⟩
    · refine .inl ⟨(if_neg inTables).trans (if_neg inSlots), fun fillable => ?_⟩
      obtain ⟨ref, read⟩ := List.exists_mem_of_length_pos (Nat.lt_of_lt_of_eq Nat.zero_lt_one once.symm)
      obtain ⟨occurs, own⟩ := List.mem_filter.mp read
      obtain rfl := of_decide_eq_true own
      exact (fillable.found occurs).elim inTables inSlots

private theorem inline_all (owner : NodeId) (tables : NodeId → Option Query) {content : NodeId → Query}
    {ids : List NodeId} {q : Query} (distinct : ids.Nodup)
    (placed : (q.placeholders.map PlaceholderRef.node).Perm ids)
    (each : ∀ d ∈ ids, known.find? d = some (content d) ∧ (content d).placeholders = []
      ∧ tables d = some (content d)) :
    (∃ d ∈ ids, ids.foldlM (inlineOne known owner) q = .error (.invalid (.placeholderMissing d owner)))
        ∧ ¬ q.Fillable
      ∨ ∃ r, ids.foldlM (inlineOne known owner) q = .ok r ∧ r.placeholders = []
        ∧ r.graft tables tables = q.graft tables tables ∧ q.MarkersInSlots := by
  induction ids generalizing q with
  | nil =>
    have closed : q.placeholders = [] := List.map_eq_nil_iff.mp placed.eq_nil
    exact .inr ⟨q, rfl, closed, rfl, (Query.Fillable.of_closed closed).markersInSlots⟩
  | cons d rest ih =>
    obtain ⟨own, distinctRest⟩ := List.nodup_cons.mp distinct
    obtain ⟨found, closed, here⟩ := each d List.mem_cons_self
    rw [List.foldlM_cons]
    rcases inlineOne_spec owner found closed here
        (Query.read_once distinct placed List.mem_cons_self)
      with ⟨failed, unfillable⟩ | ⟨r, done, left, same, fillable, clears⟩
    · rw [failed]
      exact .inl ⟨⟨d, List.mem_cons_self, rfl⟩, unfillable⟩
    · have remaining : (r.placeholders.map PlaceholderRef.node).Perm rest := by
        have dropped := placed.filter fun other => other ≠ d
        rw [List.filter_map] at dropped
        refine (left.map _).trans (dropped.trans (List.Perm.of_eq ?_))
        rw [List.filter_cons_of_neg (by simp)]
        refine List.filter_eq_self.mpr fun other member => decide_eq_true ?_
        rintro rfl
        exact own member
      rw [done]
      rcases ih distinctRest remaining fun other member => each other (List.mem_cons_of_mem _ member)
        with ⟨⟨other, member, failed⟩, unfillable⟩ | ⟨s, finished, none, graft, clear⟩
      · exact .inl ⟨⟨other, List.mem_cons_of_mem _ member, failed⟩, mt fillable unfillable⟩
      · exact .inr ⟨s, finished, none, graft.trans same, clears clear⟩

/-- With a closed query known for each dependent, a node's query is closed by putting them all in.
Then it had markers in slots only. -/
theorem inlineNode_spec {n : Node} (consistent : n.Consistent) {content : NodeId → Query}
    (each : ∀ d ∈ n.dependents, known.find? d = some (content d) ∧ (content d).placeholders = []) :
    (∃ d ∈ n.dependents, inlineNode known n = .error (.invalid (.placeholderMissing d n.id)))
        ∧ ¬ n.query.Fillable
      ∨ ∃ q, inlineNode known n = .ok q ∧ q.placeholders = []
        ∧ q = n.query.graft (among n.dependents content) (among n.dependents content)
        ∧ n.query.MarkersInSlots := by
  rcases inline_all n.id (among n.dependents content) consistent.distinct
    consistent.placed fun d member => ⟨(each d member).1, (each d member).2, if_pos member⟩
    with failed | ⟨q, done, closed, same, clear⟩
  · exact .inl failed
  · refine .inr ⟨q, done, closed, ?_, clear⟩
    rw [← same, Query.graft_of_placeholders_eq_nil closed]

end Nodes

section Blocks

variable {p : Plan} {tops : List NodeId}

/-- A node is known by what it means, with nothing left to read. -/
private def Known (p : Plan) (known : AscendingMap NodeId Query) (id : NodeId) : Prop :=
  ∃ q, known.find? id = some q ∧ q.placeholders = [] ∧ p.Expands id q

/-- A node becomes known with what it means, and all that were known stay so. -/
private theorem Known.insert {known : AscendingMap NodeId Query} {id other : NodeId} {q : Query}
    (closed : q.placeholders = []) (own : p.Expands id q) (before : Known p known other ∨ other = id) :
    Known p (known.insert id q) other := by
  by_cases here : id = other
  · subst here
    exact ⟨q, (AscendingMap.find?_insert _ _ _ _).trans (if_pos rfl), closed, own⟩
  · obtain ⟨r, found, rest⟩ := before.resolve_right (Ne.symm here)
    exact ⟨r, ((AscendingMap.find?_insert _ _ _ _).trans (if_neg here)).trans found, rest⟩

/-- The error says that a dependent has no place in the query of one of the nodes. That query is not
fillable. -/
def Misses (p : Plan) (ids : List NodeId) (e : PlanError) : Prop :=
  ∃ id ∈ ids, ∃ n, p.node? id = some n ∧ ¬ n.query.Fillable
    ∧ ∃ d ∈ n.dependents, e = .invalid (.placeholderMissing d id)

/-- The nodes have markers in slots only. -/
def Clear (p : Plan) (ids : List NodeId) : Prop :=
  ∀ id ∈ ids, ∀ n, p.node? id = some n → n.query.MarkersInSlots

theorem Misses.mono {ids more : List NodeId} {e : PlanError} (misses : p.Misses ids e)
    (within : ids ⊆ more) : p.Misses more e := by
  obtain ⟨id, member, rest⟩ := misses
  exact ⟨id, within member, rest⟩

private theorem inline_nodes (sound : p.Sound tops) {ids : List NodeId}
    (known : AscendingMap NodeId Query)
    (order : ids.Pairwise fun earlier later => ¬ p.Edge earlier later)
    (live : ∀ id ∈ ids, ∃ n, p.node? id = some n)
    (owned : ∀ id ∈ ids, ∀ d, p.Edge id d → Known p known d ∨ d ∈ ids) :
    (∃ e, ids.foldlM (fun known id => do
        let n ← p.getNode id
        return known.insert id (← inlineNode known n)) known = .error e ∧ p.Misses ids e)
      ∨ ∃ all, ids.foldlM (fun known id => do
          let n ← p.getNode id
          return known.insert id (← inlineNode known n)) known = .ok all
        ∧ (∀ id, Known p known id ∨ id ∈ ids → Known p all id) ∧ p.Clear ids := by
  induction ids generalizing known with
  | nil =>
    exact .inr ⟨known, rfl, fun id before => before.resolve_right List.not_mem_nil,
      fun id member => nomatch member⟩
  | cons id rest ih =>
    obtain ⟨first, orderRest⟩ := List.pairwise_cons.mp order
    obtain ⟨n, found⟩ := live id List.mem_cons_self
    have below (d) (member : d ∈ n.dependents) : Known p known d := by
      refine (owned id List.mem_cons_self d ⟨n, found, member⟩).resolve_right fun inIds => ?_
      rcases List.mem_cons.mp inIds with same | later
      · exact irrefl_of (· < ·) id (sound.lt_of_edge ⟨n, found, same ▸ member⟩)
      · exact first d later ⟨n, found, member⟩
    have content (d) (member : d ∈ n.dependents) : known.find? d = some ((known.find? d).getD default)
        ∧ ((known.find? d).getD default).placeholders = [] := by
      obtain ⟨q, known', closed, _⟩ := below d member
      rw [known']
      exact ⟨rfl, closed⟩
    have expands (d) (member : d ∈ n.dependents ∨ d ∈ n.dependents) :
        p.Expands d ((known.find? d).getD default) := by
      obtain ⟨q, known', _, expands⟩ := below d (member.elim (fun h => h) fun h => h)
      rw [known']
      exact expands
    rw [List.foldlM_cons, getNode_eq found]
    rcases inlineNode_spec (sound.consistent found) content
      with ⟨⟨d, member, failed⟩, unfillable⟩ | ⟨q, done, closed, same, unstray⟩
    · rw [sound.named found] at failed
      refine .inl ⟨_, ?_, id, List.mem_cons_self, n, found, unfillable, d, member, rfl⟩
      simp only [failed, bind, Except.bind]
    · have own : p.Expands id q := same ▸ Grafted.node found expands
      have step {other} (before : Known p known other ∨ other ∈ id :: rest) :
          Known p (known.insert id q) other ∨ other ∈ rest := by
        rw [List.mem_cons, ← or_assoc] at before
        exact before.imp_left (Known.insert closed own)
      simp only [done, bind, Except.bind, pure, Except.pure]
      rcases ih (known.insert id q) orderRest
        (fun other member => live other (List.mem_cons_of_mem _ member))
        (fun other member d edge => step (owned other (List.mem_cons_of_mem _ member) d edge))
        with ⟨e, failed, misses⟩ | ⟨all, finished, knows, clear⟩
      · exact .inl ⟨e, failed, misses.mono (List.subset_cons_self id rest)⟩
      · refine .inr ⟨all, finished, fun other before => knows other (step before), ?_⟩
        intro other member m there
        rcases List.mem_cons.mp member with rfl | later
        · cases found.symm.trans there
          exact unstray
        · exact clear other later m there

/-- The inlined query of a whole block is closed, and is what the block's root means; then the nodes of
the block have markers in slots only. There is none only if some node of the block is not fillable. -/
theorem inlineBlock_spec (sound : p.Sound tops) {b : Block} (whole : b.Whole p) :
    (∃ e, p.inlineBlock b = .error e ∧ p.Misses b.ids e)
      ∨ ∃ q, p.inlineBlock b = .ok q ∧ q.placeholders = [] ∧ p.Expands b.root q ∧ p.Clear b.ids := by
  have inside {id} : id ∈ b.members.reverse ++ [b.root] ↔ Relation.ReflTransGen p.Edge b.root id := by
    rw [List.mem_append, List.mem_reverse, List.mem_singleton, or_comm, ← List.mem_cons]
    exact whole.mem_ids
  have order : (b.members.reverse ++ [b.root]).Pairwise fun earlier later => ¬ p.Edge earlier later := by
    refine List.pairwise_append.mpr ⟨List.pairwise_reverse.mpr whole.order,
      List.pairwise_singleton _ _, ?_⟩
    intro id member root isRoot edge
    rw [List.mem_singleton.mp isRoot] at edge
    have path := whole.members.mp (List.mem_reverse.mp member)
    exact irrefl_of (· < ·) b.root (sound.lt_of_path (path.tail edge))
  have live (id) (member : id ∈ b.members.reverse ++ [b.root]) : ∃ n, p.node? id = some n :=
    sound.live_of_mem_ids whole (whole.mem_ids.mpr (inside.mp member))
  unfold inlineBlock
  rcases inline_nodes sound .empty order live fun id member d edge =>
    .inr (inside.mpr ((inside.mp member).tail edge))
    with ⟨e, failed, misses⟩ | ⟨all, done, knows, clear⟩
  · rw [failed]
    exact .inl ⟨e, rfl, misses.mono fun id member => whole.mem_ids.mpr (inside.mp member)⟩
  · obtain ⟨q, found, closed, expands⟩ := knows b.root (.inr (inside.mpr .refl))
    refine .inr ⟨q, ?_, closed, expands, fun id member => ?_⟩
    · rw [done]
      simp only [bind, Except.bind, found]
    · exact clear id (inside.mpr (whole.mem_ids.mp member))

end Blocks

end ApproxQuery.Plan
