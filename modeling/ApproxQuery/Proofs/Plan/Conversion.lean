import ApproxQuery.Proofs.Plan.Inlining
import ApproxQuery.Proofs.Plan.Merging

/-! Converting a whole block replaces it by its root, which then reads nothing. -/
namespace ApproxQuery

/-- The scramble over which a query has increments, or why it is not converted. -/
def Query.convertible (q : Query) (catalog : Catalog) : Except NotConverted ScrambleMeta :=
  match q.progressTable? catalog with
  | none => .error .noScrambledTable
  | some scramble =>
    match q.nonDecomposable? with
    | some call => .error (.nonDecomposable call)
    | none =>
      match q.unscalable? scramble.name with
      | some reason => .error (.inconsistentEstimate reason)
      | none => .ok scramble

theorem Query.convertible_eq_ok {q : Query} {catalog : Catalog} {scramble : ScrambleMeta} :
    q.convertible catalog = .ok scramble ↔ q.progressTable? catalog = some scramble
      ∧ q.nonDecomposable? = none ∧ q.unscalable? scramble.name = none := by
  unfold convertible
  cases q.progressTable? catalog with
  | none => exact iff_of_false nofun fun all => nomatch all.1
  | some own =>
    dsimp only
    cases q.nonDecomposable? with
    | some call => exact iff_of_false nofun fun all => nomatch all.2.1
    | none =>
      dsimp only
      cases scalable : q.unscalable? own.name with
      | some reason =>
        refine iff_of_false nofun fun all => ?_
        cases all.1
        cases scalable.symm.trans all.2.2
      | none =>
        constructor
        · rintro ⟨⟩
          exact ⟨rfl, rfl, scalable⟩
        · rintro ⟨⟨⟩, _⟩
          rfl

namespace Plan

open Relation

variable {p : Plan} {tops : List NodeId} {b : Block}

/-- The root of a block once it has absorbed the others. -/
def absorbedRoot (root : Node) (scramble : ScrambleMeta) (inlined : Query) : Node :=
  { root with
    kind := .progressive scramble
    query := inlined
    dependents := []
    tables := .empty
    filters := .empty
    listens := [] }

/-- What a conversion of a block does to the nodes of a plan. -/
structure Absorbed (p : Plan) (b : Block) (root : Node) (scramble : ScrambleMeta) (inlined : Query)
    (nodes : AscendingMap NodeId Node) : Prop where
  ordered : nodes.Ordered
  turned : nodes.find? b.root = some (absorbedRoot root scramble inlined)
  gone : ∀ id ∈ b.members, nodes.find? id = none
  other : ∀ id ∉ b.ids, nodes.find? id = p.node? id

/-- A block whose conversion goes through, with what its root means before as the query after. -/
structure Converts (p : Plan) (b : Block) (root : Node) (scramble : ScrambleMeta) (inlined : Query)
    (nodes : AscendingMap NodeId Node) : Prop extends Absorbed p b root scramble inlined nodes where
  found : p.node? b.root = some root
  closed : inlined.placeholders = []
  expands : p.Expands b.root inlined
  progress : inlined.progressTable? p.catalog = some scramble
  decomposable : inlined.nonDecomposable? = none
  scalable : inlined.unscalable? scramble.name = none

section Absorbing

private theorem mapM_lookNode {ids : List NodeId} (live : ∀ id ∈ ids, ∃ n, p.node? id = some n) :
    ∃ nodes, (ids.mapM lookNode : PlanM (List Node)) p = (.ok nodes, p)
      ∧ ∀ n ∈ nodes, ∃ id ∈ ids, p.node? id = some n := by
  induction ids with
  | nil => exact ⟨[], rfl, fun _ member => nomatch member⟩
  | cons id rest ih =>
    obtain ⟨n, found⟩ := live id List.mem_cons_self
    obtain ⟨nodes, done, listed⟩ := ih fun other member => live other (List.mem_cons_of_mem _ member)
    refine ⟨n :: nodes, ?_, fun m member => ?_⟩
    · rw [List.mapM_cons]
      exact (bind_ok (lookNode_eq found)).trans (bind_ok done)
    · rcases List.mem_cons.mp member with same | later
      · exact ⟨id, List.mem_cons_self, same ▸ found⟩
      · obtain ⟨other, inRest, found⟩ := listed m later
        exact ⟨other, List.mem_cons_of_mem _ inRest, found⟩

private theorem filter_outside {α : Type} {m : AscendingMap NodeId α}
    (inside : ∀ d ∈ m.keys, b.contains d = true) :
    (m.entries.filter fun entry => !b.contains entry.1) = [] := by
  rw [List.filter_eq_nil_iff]
  intro entry member
  simp [inside entry.1 (List.mem_map_of_mem member)]

/-- The nodes of a block that reads nothing outside leave no references behind. -/
private theorem foldl_gather (nodes : List Node) (o : Outward)
    (inside : ∀ n ∈ nodes, (∀ d ∈ n.tables.keys, b.contains d = true)
      ∧ ∀ d ∈ n.filters.keys, b.contains d = true) :
    (nodes.foldl (Outward.gather b) o).tables = o.tables
      ∧ (nodes.foldl (Outward.gather b) o).filters = o.filters := by
  induction nodes generalizing o with
  | nil => exact ⟨rfl, rfl⟩
  | cons n rest ih =>
    obtain ⟨tables, filters⟩ := inside n List.mem_cons_self
    have later := ih (o.gather b n) fun m member => inside m (List.mem_cons_of_mem _ member)
    have own : (o.gather b n).tables = o.tables ∧ (o.gather b n).filters = o.filters := by
      unfold Outward.gather
      rw [filter_outside tables, filter_outside filters]
      exact ⟨rfl, rfl⟩
    exact ⟨later.1.trans own.1, later.2.trans own.2⟩

private theorem forM_removeNode (ids : List NodeId) (p : Plan) :
    ∃ nodes, (ids.forM fun m => modify (·.removeNode m) : PlanM Unit) p = (.ok (), { p with nodes })
      ∧ (p.nodes.Ordered → nodes.Ordered)
      ∧ ∀ id, nodes.find? id = if id ∈ ids then none else p.node? id := by
  induction ids generalizing p with
  | nil => exact ⟨p.nodes, rfl, fun ordered => ordered, fun id => (if_neg List.not_mem_nil).symm⟩
  | cons first rest ih =>
    obtain ⟨nodes, done, ordered, after⟩ := ih (p.removeNode first)
    refine ⟨nodes, (bind_ok (a := ()) rfl).trans done, fun before => ordered (before.erase _),
      fun id => ?_⟩
    rw [after id, node?_removeNode]
    by_cases same : first = id
    · simp [same]
    · simp [same, Ne.symm same]

/-- A whole block is absorbed into its root. -/
private theorem absorb_ok (sound : p.Sound tops) (whole : b.Whole p) {root : Node}
    (found : p.node? b.root = some root) (scramble : ScrambleMeta) (inlined : Query) :
    ∃ nodes, absorb b scramble inlined p
        = (.ok (.converted b.root scramble.name scramble.blockCount b.members), { p with nodes })
      ∧ Absorbed p b root scramble inlined nodes := by
  have contains {id} (inIds : ReflTransGen p.Edge b.root id) : b.contains id = true := by
    rcases List.mem_cons.mp (whole.mem_ids.mpr inIds) with same | member
    · simp [Block.contains, same]
    · simp [Block.contains, member]
  obtain ⟨members, looked, listed⟩ := mapM_lookNode fun id (member : id ∈ b.root :: b.members) =>
    sound.live_of_mem_ids whole member
  obtain ⟨tables, filters⟩ := foldl_gather (b := b) members ⟨.empty, .empty, []⟩
    fun n member => by
      obtain ⟨id, inIds, there⟩ := listed n member
      have consistent := sound.consistent there
      have inside (d) (reads : d ∈ n.dependents) : b.contains d = true :=
        contains ((whole.mem_ids.mp inIds).tail ⟨n, there, reads⟩)
      exact ⟨fun d key => inside d (consistent.tableKeys d key),
        fun d key => inside d (consistent.filterKeys d key)⟩
  obtain ⟨nodes, removed, ordered, after⟩ := forM_removeNode b.members
    (p.insertNode (absorbedRoot root scramble inlined))
  have look (id) : (p.insertNode (absorbedRoot root scramble inlined)).node? id
      = if b.root = id then some (absorbedRoot root scramble inlined) else p.node? id := by
    rw [node?_insertNode, ← sound.named found]
    rfl
  refine ⟨nodes, ?_, ⟨ordered (sound.ordered.insert _ _), ?_, fun id member => ?_, fun id outside => ?_⟩⟩
  · unfold absorb
    refine (bind_ok looked).trans ((bind_ok (lookNode_eq found)).trans ?_)
    -- Whatever the queue, nothing is to signal on it.
    simp only [whole.external, tables, filters]
    have finished : ((do
        modify fun p => p.insertNode (absorbedRoot root scramble inlined)
        b.members.forM fun m => modify (·.removeNode m)
        return .converted b.root scramble.name scramble.blockCount b.members) : PlanM Conversion) p
        = (.ok (.converted b.root scramble.name scramble.blockCount b.members), { p with nodes }) := by
      refine (bind_ok (a := ()) rfl).trans ?_
      exact bind_ok removed
    cases root.listens with
    | nil => exact finished
    | cons queue _ => exact finished
  · rw [after, if_neg (sound.root_not_mem_members whole), look, if_pos rfl]
  · rw [after, if_pos member]
  · obtain ⟨notRoot, notMember⟩ := not_or.mp (fun inIds => outside (List.mem_cons.mpr inIds))
    rw [after, if_neg notMember, look, if_neg (Ne.symm notRoot)]

/-- A block whose root is not progressive is converted as its inlined query allows. There is none only
if a dependent has no place in a query that is not fillable. -/
theorem Sound.convert_inlined (sound : p.Sound tops) (whole : b.Whole p) {root : Node}
    (found : p.node? b.root = some root) (plain : root.isProgressive = false) :
    (∃ e, convert b p = (.error e, p) ∧ p.Misses b.ids e)
      ∨ ∃ inlined, inlined.placeholders = [] ∧ p.Expands b.root inlined ∧ p.Clear b.ids
        ∧ ((∃ reason, inlined.convertible p.catalog = .error reason
            ∧ convert b p = (.ok (.notConverted b.root reason), p))
          ∨ ∃ scramble nodes, inlined.convertible p.catalog = .ok scramble
            ∧ Absorbed p b root scramble inlined nodes
            ∧ convert b p = (.ok (.converted b.root scramble.name scramble.blockCount b.members),
              { p with nodes })) := by
  have notYet : ¬ root.isProgressive = true := Bool.eq_false_iff.mp plain
  unfold convert
  rw [bind_ok (lookNode_eq found), if_neg notYet,
    bind_ok (show (get : PlanM Plan) p = (.ok p, p) from rfl)]
  rcases inlineBlock_spec sound whole with ⟨e, failed, misses⟩ | ⟨inlined, done, closed, expands, clear⟩
  · rw [failed]
    exact .inl ⟨e, bind_error rfl, misses⟩
  · rw [done, bind_ok (show liftExcept (.ok inlined) p = (.ok inlined, p) from rfl)]
    refine .inr ⟨inlined, closed, expands, clear, ?_⟩
    unfold Query.convertible
    cases inlined.progressTable? p.catalog with
    | none => exact .inl ⟨_, rfl, rfl⟩
    | some scramble =>
      cases inlined.nonDecomposable? with
      | some call => exact .inl ⟨_, rfl, rfl⟩
      | none =>
        dsimp only
        cases inlined.unscalable? scramble.name with
        | some reason => exact .inl ⟨_, rfl, rfl⟩
        | none =>
          obtain ⟨nodes, turned, absorbed⟩ := absorb_ok sound whole found scramble inlined
          exact .inr ⟨scramble, nodes, rfl, absorbed, turned⟩

/-- A block is left as it is, whether that is an error or not, or else it is converted. The only
error is that a dependent has no place in a query that is not fillable. -/
theorem Sound.convert_cases (sound : p.Sound tops) (whole : b.Whole p) :
    (∃ answer, convert b p = (answer, p) ∧ (∀ c, answer = .ok c → c.isConverted = false)
        ∧ ∀ e, answer = .error e → p.Misses b.ids e)
      ∨ ∃ root scramble inlined nodes, Converts p b root scramble inlined nodes
        ∧ convert b p = (.ok (.converted b.root scramble.name scramble.blockCount b.members),
          { p with nodes }) := by
  obtain ⟨root, found, _⟩ := whole.live
  have left (reason : NotConverted) : ∀ c, Except.ok (Conversion.notConverted b.root reason)
      = (.ok c : Except PlanError Conversion) → c.isConverted = false := by
    rintro _ ⟨⟩
    rfl
  cases plain : root.isProgressive with
  | true =>
    refine .inl ⟨.ok (.notConverted b.root .alreadyProgressive), ?_, left .alreadyProgressive, nofun⟩
    unfold convert
    rw [bind_ok (lookNode_eq found), if_pos plain]
    rfl
  | false =>
    rcases sound.convert_inlined whole found plain with ⟨e, failed, misses⟩
      | ⟨inlined, closed, expands, _, ⟨reason, _, done⟩ | ⟨scramble, nodes, allowed, absorbed, done⟩⟩
    · refine .inl ⟨_, failed, nofun, ?_⟩
      rintro _ ⟨⟩
      exact misses
    · exact .inl ⟨_, done, left reason, nofun⟩
    · obtain ⟨progress, decomposable, scalable⟩ := Query.convertible_eq_ok.mp allowed
      exact .inr ⟨root, scramble, inlined, nodes,
        ⟨absorbed, found, closed, expands, progress, decomposable, scalable⟩, done⟩

end Absorbing

section Keeping

variable {root : Node} {scramble : ScrambleMeta} {inlined : Query} {nodes : AscendingMap NodeId Node}

namespace Absorbed

/-- A node that is left is the root of the block, or as it was. -/
theorem origin (absorbed : Absorbed p b root scramble inlined nodes) {id : NodeId} {n : Node}
    (found : ({ p with nodes } : Plan).node? id = some n) :
    (id = b.root ∧ n = absorbedRoot root scramble inlined)
      ∨ (id ∉ b.ids ∧ p.node? id = some n) := by
  have found' : nodes.find? id = some n := found
  by_cases isRoot : id = b.root
  · subst isRoot
    exact .inl ⟨rfl, Option.some.inj (found'.symm.trans absorbed.turned)⟩
  · by_cases member : id ∈ b.members
    · exact nomatch found'.symm.trans (absorbed.gone id member)
    · have outside := Block.not_mem_ids isRoot member
      exact .inr ⟨outside, (absorbed.other id outside).symm.trans found'⟩

/-- A node that is no member is still there, and signals and stores as it did. -/
private theorem remains (absorbed : Absorbed p b root scramble inlined nodes)
    (found : p.node? b.root = some root) {id : NodeId} {m : Node} (there : p.node? id = some m)
    (outside : id ∉ b.members) :
    ∃ n, ({ p with nodes } : Plan).node? id = some n ∧ n.parents = m.parents
      ∧ n.broadcasts = m.broadcasts ∧ n.scratch = m.scratch := by
  by_cases isRoot : id = b.root
  · subst isRoot
    cases found.symm.trans there
    exact ⟨_, absorbed.turned, rfl, rfl, rfl⟩
  · have elsewhere := Block.not_mem_ids isRoot outside
    exact ⟨m, (absorbed.other id elsewhere).trans there, rfl, rfl, rfl⟩

end Absorbed

/-- A node that reads a member is in the block. -/
theorem Sound.mem_ids_of_edge (sound : p.Sound tops) (whole : b.Whole p) {id d : NodeId}
    (edge : p.Edge id d) (member : d ∈ b.members) : id ∈ b.ids := by
  obtain ⟨up, path, last⟩ := TransGen.tail'_iff.mp (whole.members.mp member)
  exact whole.mem_ids.mpr (sound.edge_unique edge last ▸ path)

/-- A node that reads the block's root is not in the block. -/
private theorem Sound.not_mem_ids_of_edge (sound : p.Sound tops) (whole : b.Whole p) {id : NodeId}
    (edge : p.Edge id b.root) : id ∉ b.ids := fun member =>
  irrefl_of (· < ·) b.root
    (sound.lt_of_path (TransGen.tail' (whole.mem_ids.mp member) edge))

/-- What reads the block's root, or a node outside the block, is outside itself. -/
private theorem Sound.reader_not_mem_ids (sound : p.Sound tops) (whole : b.Whole p) {up id : NodeId}
    (edge : p.Edge up id) (outside : id ∉ b.members) : up ∉ b.ids := by
  by_cases isRoot : id = b.root
  · exact sound.not_mem_ids_of_edge whole (isRoot ▸ edge)
  · intro member
    have inIds := whole.mem_ids.mpr ((whole.mem_ids.mp member).tail edge)
    exact Block.not_mem_ids isRoot outside inIds

/-- The root reads nothing any more, and has nothing recorded. -/
private theorem consistent_absorbedRoot (closed : inlined.placeholders = []) :
    (absorbedRoot root scramble inlined).Consistent := by
  have none : (absorbedRoot root scramble inlined).query.placeholders = [] := closed
  exact {
    distinct := List.nodup_nil
    placed := by rw [none]; exact .refl _
    recorded := fun d => by rw [none]; exact .refl _
    tables := AscendingMap.ordered_empty
    filters := AscendingMap.ordered_empty
    tableKeys := fun _ member => nomatch member
    filterKeys := fun _ member => nomatch member
    deaf := fun _ => rfl
    hears := fun reads => absurd rfl reads
    progressive := fun _ => rfl }

/-- What is left of the block or outside of it had its scratch table before. -/
private theorem Converts.had_scratch (converts : Converts p b root scramble inlined nodes) {id : NodeId}
    {n : Node} (there : ({ p with nodes } : Plan).node? id = some n) :
    ∃ m, p.node? id = some m ∧ m.scratch = n.scratch := by
  rcases converts.origin there with ⟨rfl, rfl⟩ | ⟨_, before⟩
  · exact ⟨root, converts.found, rfl⟩
  · exact ⟨n, before, rfl⟩

/-- Converting a block to what its root means keeps the plan sound. -/
theorem Sound.converts (sound : p.Sound tops) (whole : b.Whole p)
    (converts : Converts p b root scramble inlined nodes) : ({ p with nodes } : Plan).Sound tops where
  ordered := converts.ordered
  named := by
    intro id n there
    rcases converts.origin there with ⟨rfl, rfl⟩ | ⟨_, before⟩
    · have same := sound.named converts.found
      exact same
    · exact sound.named before
  consistent := by
    intro id n there
    rcases converts.origin there with ⟨rfl, rfl⟩ | ⟨_, before⟩
    · exact consistent_absorbedRoot converts.closed
    · exact sound.consistent before
  top := by
    intro id isTop
    obtain ⟨m, before, rootless, silent⟩ := sound.top id isTop
    have outside : id ∉ b.members := fun member => by
      obtain ⟨_, _, n, there, reads⟩ := TransGen.tail'_iff.mp (whole.members.mp member)
      exact sound.not_top there reads isTop
    obtain ⟨n, there, parents, broadcasts, _⟩ := converts.remains converts.found before outside
    exact ⟨n, there, parents.trans rootless, broadcasts.trans silent⟩
  below := by
    intro id n there notTop
    have old {m : Node} (before : p.node? id = some m) (outside : id ∉ b.members) :
        ∃ up m', m.parents = [up] ∧ ({ p with nodes } : Plan).node? up = some m'
          ∧ id ∈ m'.dependents := by
      obtain ⟨up, m', only, above, reads⟩ := sound.below before notTop
      have elsewhere := sound.reader_not_mem_ids whole ⟨m', above, reads⟩ outside
      exact ⟨up, m', only, (converts.other up elsewhere).trans above, reads⟩
    rcases converts.origin there with ⟨rfl, rfl⟩ | ⟨outside, before⟩
    · have above := old converts.found (sound.root_not_mem_members whole)
      exact above
    · exact old before fun member => outside (List.mem_cons_of_mem _ member)
  reads := by
    intro id n d there member
    rcases converts.origin there with ⟨_, rfl⟩ | ⟨outside, before⟩
    · cases member
    · obtain ⟨m, below, less, only, heard⟩ := sound.reads before member
      obtain ⟨m', there', parents, broadcasts, _⟩ := converts.remains converts.found below fun inside =>
        outside (sound.mem_ids_of_edge whole ⟨n, before, member⟩ inside)
      exact ⟨m', there', less, parents.trans only, broadcasts.trans heard⟩
  stored := by
    intro id n ref there member
    rcases converts.origin there with ⟨_, rfl⟩ | ⟨outside, before⟩
    · have none : (absorbedRoot root scramble inlined).query.placeholders = [] := converts.closed
      rw [none] at member
      cases member
    · obtain ⟨m, below, same⟩ := sound.stored before member
      have reads := (sound.consistent before).mem_dependents.mpr ⟨ref, member, rfl⟩
      obtain ⟨m', there', _, _, scratch⟩ := converts.remains converts.found below fun inside =>
        outside (sound.mem_ids_of_edge whole ⟨n, before, reads⟩ inside)
      exact ⟨m', there', same.trans scratch.symm⟩
  scratch := by
    intro x y n m thereX thereY same
    obtain ⟨n', beforeX, scratchX⟩ := converts.had_scratch thereX
    obtain ⟨m', beforeY, scratchY⟩ := converts.had_scratch thereY
    exact sound.scratch beforeX beforeY ((scratchX.trans same).trans scratchY.symm)
  queues := by
    intro x y n m queue thereX thereY inX inY
    rcases converts.origin thereX with ⟨_, rfl⟩ | ⟨_, beforeX⟩
    · cases inX
    · rcases converts.origin thereY with ⟨_, rfl⟩ | ⟨_, beforeY⟩
      · cases inY
      · exact sound.queues beforeX beforeY inX inY
  aggregates := by
    intro id n there notTop
    rcases converts.origin there with ⟨rfl, rfl⟩ | ⟨_, before⟩
    · refine ⟨?_, nofun⟩
      cases converts.expands with
      | node found' below =>
        cases converts.found.symm.trans found'
        exact (Query.isAggregateLevel_graft _ _ root.query).trans (sound.aggregates converts.found notTop).1
    · exact sound.aggregates before notTop

/-- A block stays whole when one that shares no node with it is converted. -/
private theorem Absorbed.whole (absorbed : Absorbed p b root scramble inlined nodes) {other : Block}
    (apart : b.ids.Disjoint other.ids) (whole : other.Whole p) : other.Whole { p with nodes } := by
  have unchanged {id} (inside : id ∈ other.ids) : ({ p with nodes } : Plan).node? id = p.node? id :=
    absorbed.other id fun inBlock => apart inBlock inside
  refine whole.of_edges ?_ fun inside => ?_
  · rw [unchanged List.mem_cons_self]
    exact whole.live
  · unfold Edge
    rw [unchanged inside]

/-- What is not absorbed means what it meant. -/
theorem Sound.expands_converts (sound : p.Sound tops) (whole : b.Whole p)
    (converts : Converts p b root scramble inlined nodes) {id : NodeId} {q : Query}
    (expands : p.Expands id q) (outside : id ∉ b.members) :
    ({ p with nodes } : Plan).Expands id q := by
  have turned : ({ p with nodes } : Plan).node? b.root = some (absorbedRoot root scramble inlined) :=
    converts.turned
  have own : ({ p with nodes } : Plan).Expands b.root inlined := .of_leaf turned rfl converts.closed
  induction expands with
  | @node id n known found below ih =>
    by_cases isRoot : id = b.root
    · subst isRoot
      exact converts.expands.unique (.node found below) ▸ own
    · have elsewhere := Block.not_mem_ids isRoot outside
      refine Expands.node known ((converts.other id elsewhere).trans found) fun d member =>
        ih d (.inl member) fun inside => ?_
      exact elsewhere (sound.mem_ids_of_edge whole ⟨n, found, member⟩ inside)

end Keeping

section Series

/-- One conversion, whatever its outcome, keeps the plan and all other blocks. -/
theorem Sound.keeps_convert (sound : p.Sound tops) (whole : b.Whole p) :
    Keeps tops p (convert b p).2
      ∧ ∀ other : Block, b.ids.Disjoint other.ids → other.Whole p → other.Whole (convert b p).2 := by
  rcases sound.convert_cases whole with ⟨answer, same, _⟩ | ⟨root, scramble, inlined, nodes, converts, done⟩
  · rw [same]
    exact ⟨sound.keeps_self, fun _ _ before => before⟩
  · rw [done]
    refine ⟨⟨rfl, rfl, sound.converts whole converts, fun {top q} isTop means => ?_⟩,
      fun _ apart before => converts.toAbsorbed.whole apart before⟩
    refine sound.expands_converts whole converts means fun member => ?_
    obtain ⟨_, _, n, there, reads⟩ := TransGen.tail'_iff.mp (whole.members.mp member)
    exact sound.not_top there reads isTop

/-- A series of conversions, up to the first that fails, keeps the plan and the blocks it has not
come to. -/
theorem Sound.keeps_mapM_convert (sound : p.Sound tops) (blocks rest : List Block)
    (wholes : ∀ b ∈ blocks ++ rest, b.Whole p)
    (apart : (blocks ++ rest).Pairwise fun b b' => b.ids.Disjoint b'.ids) :
    Keeps tops p ((blocks.mapM convert : PlanM _) p).2
      ∧ ∀ b ∈ rest, b.Whole ((blocks.mapM convert : PlanM _) p).2 := by
  induction blocks generalizing p with
  | nil => exact ⟨sound.keeps_self, wholes⟩
  | cons b later ih =>
    obtain ⟨first, apartLater⟩ := List.pairwise_cons.mp apart
    obtain ⟨kept, stay⟩ := sound.keeps_convert (wholes b List.mem_cons_self)
    have wholes' (other) (member : other ∈ later ++ rest) : other.Whole (convert b p).2 :=
      stay other (first other member) (wholes other (List.mem_cons_of_mem _ member))
    rw [List.mapM_cons]
    generalize outcome : convert b p = result at kept wholes'
    obtain ⟨answer, p'⟩ := result
    cases answer with
    | error e =>
      rw [bind_error outcome]
      exact ⟨kept, fun other member => wholes' other (List.mem_append_right _ member)⟩
    | ok c =>
      obtain ⟨kept', stay'⟩ := ih kept.sound wholes' apartLater
      rw [bind_ok outcome]
      generalize done : (later.mapM convert : PlanM _) p' = result at kept' stay'
      obtain ⟨answers, p''⟩ := result
      cases answers with
      | error e =>
        rw [bind_error done]
        exact ⟨kept.trans kept', stay'⟩
      | ok cs =>
        rw [bind_ok done]
        exact ⟨kept.trans kept', stay'⟩

/-- Making blocks progressive converts one after the other. -/
theorem makeProgressive_eq {blocks : List Block} (found : p.blocks = .ok blocks) :
    makeProgressive p = (blocks.mapM convert : PlanM _) p := by
  unfold makeProgressive
  refine (bind_ok (a := p) rfl).trans ?_
  rw [found]
  exact bind_ok rfl

/-- Making blocks progressive keeps a plan with one top, whether it fails or not. -/
theorem Sound.keeps_makeProgressive {root : NodeId} (sound : p.Sound [root])
    (rooted : p.root = some root) : Keeps [root] p (makeProgressive p).2 := by
  obtain ⟨blocks, found, wholes, apart⟩ := sound.blocks_ok rooted
  rw [makeProgressive_eq found]
  refine (sound.keeps_mapM_convert blocks [] ?_ ?_).1
  · exact (List.append_nil blocks).symm ▸ wholes
  · exact (List.append_nil blocks).symm ▸ apart

end Series

end Plan

end ApproxQuery
