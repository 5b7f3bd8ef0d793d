import ApproxQuery.Proofs.Plan.Closing
import ApproxQuery.Proofs.Plan.Grafted
import ApproxQuery.Proofs.Query.Recovery

/-! The search for nodes in a query: each part of the query leaves a sound plan with a top for every
placeholder it put in, and what was cut out of it can be recovered from the plan. -/
namespace ApproxQuery.Plan

/-- What a search leaves behind, given the tops before it, its links and what was cut out. -/
structure Searched (tops : List NodeId) (p p' : Plan) (links : List Link) (cuts : List Query) :
    Prop where
  grown : Grown p p'
  sound : p'.Sound (tops ++ links.map Link.node)
  fresh : p'.Fresh
  new : ∀ link ∈ links, p.nextNode ≤ link.node.index
  distinct : (links.map Link.node).Nodup
  stored : ∀ link ∈ links, ∃ n, p'.node? link.node = some n ∧ link.ref.table = n.scratch
    ∧ n.query.isAggregateLevel = true ∧ n.kind ≠ .projection
  count : p'.nextNode = p.nextNode + cuts.length
  cut : List.Forall₂ (fun index cut => (∃ n, p'.node? ⟨index⟩ = some n)
      ∧ ∀ p'' r, p'.Extends p'' → p''.Restores ⟨index⟩ r → r.Recovers { cut with asName := none })
    (List.range' p.nextNode cuts.length) cuts

namespace Searched

variable {tops : List NodeId} {p p' p'' : Plan} {links more : List Link} {cuts others : List Query}

/-- A search that only draws numbers, and none of nodes. -/
theorem of_draw {queues names : Nat} (sound : p.Sound tops) (fresh : p.Fresh)
    (nextQueue : p.nextQueue ≤ queues) (identifiers : p.identifiers ≤ names) :
    Searched tops p { p with nextQueue := queues, identifiers := names } [] [] where
  grown := Grown.of_draw fresh (Nat.le_refl _) nextQueue identifiers
  sound := by
    rw [List.map_nil, List.append_nil]
    exact sound.of_nodes rfl
  fresh := fresh.of_draw (Nat.le_refl _) nextQueue identifiers
  new := fun _ member => nomatch member
  distinct := List.nodup_nil
  stored := fun _ member => nomatch member
  count := rfl
  cut := .nil

theorem append (first : Searched tops p p' links cuts)
    (second : Searched (tops ++ links.map Link.node) p' p'' more others) :
    Searched tops p p'' (links ++ more) (cuts ++ others) where
  grown := first.grown.trans second.grown
  sound := by
    rw [List.map_append, ← List.append_assoc]
    exact second.sound
  fresh := second.fresh
  new := by
    intro link member
    rcases List.mem_append.mp member with early | late
    · exact first.new link early
    · exact Nat.le_trans first.grown.nextNode (second.new link late)
  distinct := by
    rw [List.map_append]
    refine List.nodup_append.mpr ⟨first.distinct, second.distinct, ?_⟩
    rintro id early _ late rfl
    obtain ⟨link, member, rfl⟩ := List.mem_map.mp early
    obtain ⟨link', member', same⟩ := List.mem_map.mp late
    obtain ⟨n, found, _⟩ := first.stored link member
    have above := second.new link' member'
    rw [same] at above
    exact absurd (first.fresh.nodes found) (Nat.not_lt.mpr above)
  stored := by
    intro link member
    rcases List.mem_append.mp member with early | late
    · obtain ⟨n, found, rest⟩ := first.stored link early
      exact ⟨n, (second.grown.old (first.fresh.nodes found)).trans found, rest⟩
    · exact second.stored link late
  count := by
    rw [second.count, first.count, List.length_append, Nat.add_assoc]
  cut := by
    rw [List.length_append, ← List.range'_append_1]
    refine List.rel_append ?_ (first.count ▸ second.cut)
    refine first.cut.imp fun index cut here => ⟨?_, fun plan r later => ?_⟩
    · obtain ⟨n, found⟩ := here.1
      exact ⟨n, (second.grown.old (first.fresh.nodes found)).trans found⟩
    · exact here.2 plan r ((second.grown.keeps first.fresh).trans later)

end Searched

section Opening

variable {tops : List NodeId} {p : Plan} {q : Query}

/-- The number and the table that are drawn for a node. -/
def opened (p : Plan) (q : Query) : OpenNode :=
  ⟨⟨p.nextNode⟩, if q.isAggregateLevel then .aggregate else .projection,
    p.numberedTable p.identifiers⟩

/-- The plan once they are drawn. -/
def afterOpening (p : Plan) : Plan :=
  { p with nextNode := p.nextNode + 1, identifiers := p.identifiers + 1 }

theorem grown_afterOpening (fresh : p.Fresh) : Grown p p.afterOpening :=
  Grown.of_draw fresh (Nat.le_succ _) (Nat.le_refl _) (Nat.le_succ _)

theorem fresh_afterOpening (fresh : p.Fresh) : p.afterOpening.Fresh :=
  fresh.of_draw (Nat.le_succ _) (Nat.le_refl _) (Nat.le_succ _)

/-- A node whose level has been searched can be closed. -/
theorem Searched.closing {p' : Plan} {links : List Link} {cuts : List Query} {level : Query}
    (sound : p.Sound tops) (fresh : p.Fresh)
    (searched : Searched tops p.afterOpening p' links cuts)
    (placed : level.placeholders.Perm (links.map Link.ref)) :
    Closing p' tops (p.opened q) level links where
  sound := searched.sound
  fresh := searched.fresh
  drawn := Nat.lt_of_lt_of_le (Nat.lt_succ_self _) searched.grown.nextNode
  unused := by
    refine (searched.grown.old (Nat.lt_succ_self _)).trans ?_
    by_contra present
    obtain ⟨n, found⟩ := Option.ne_none_iff_exists'.mp present
    have drawn : p.nextNode < p.nextNode := fresh.nodes found
    exact Nat.lt_irrefl _ drawn
  named := by
    refine ⟨p.identifiers, Nat.lt_of_lt_of_le (Nat.lt_succ_self _) searched.grown.identifiers, ?_⟩
    exact (Grown.numberedTable_eq
      ((grown_afterOpening fresh).trans searched.grown).toSameFrame p.identifiers).symm
  unshared := by
    intro id n found same
    by_cases old : id.index < p.afterOpening.nextNode
    · have before : p.node? id = some n := (searched.grown.old old).symm.trans found
      obtain ⟨k, drawn, named⟩ := fresh.tables before
      have equal := p.numberedTable_injective (named.symm.trans same)
      exact Nat.ne_of_lt drawn equal
    · obtain ⟨k, drawn, named⟩ := searched.grown.new found (Nat.le_of_not_lt old)
      have equal := p.numberedTable_injective (named.symm.trans same)
      exact Nat.not_succ_le_self _ (equal ▸ drawn)
  plain := by
    intro s progressive
    unfold opened at progressive
    split at progressive
    · cases progressive
    · cases progressive
  distinct := searched.distinct
  apart := by
    intro id isTop linked
    obtain ⟨n, found, _⟩ := sound.top id isTop
    obtain ⟨link, member, rfl⟩ := List.mem_map.mp linked
    have above : p.nextNode + 1 ≤ link.node.index := searched.new link member
    have below := fresh.nodes found
    omega
  below := by
    intro link member
    exact searched.new link member
  stored := searched.stored
  placed := placed

end Opening

/-- What is put back for the links of a level: for each what its node restores, in the from-list or
in slots only, as it is linked. -/
def Puts (p : Plan) (tables slots : NodeId → Option Query) (links : List Link) : Prop :=
  ∀ link ∈ links, ∃ r, p.Restores link.node r ∧ match link with
    | .table ref => tables ref.node = some r ∧ slots ref.node = none
    | .slot read => slots read.ref.node = some r

section Closing

variable {tops : List NodeId} {p p' : Plan} {q level : Query} {links : List Link}
  {cuts : List Query}

/-- A closed node puts back exactly its links. -/
private theorem puts_closedNode (start : OpenNode) (level : Query) (queue : QueueId)
    {known : NodeId → Query} (distinct : (links.map Link.node).Nodup)
    (below : ∀ d, d ∈ (closedNode start level links queue).tables.keys
      ∨ d ∈ (closedNode start level links queue).filters.keys → p.Restores d (known d)) :
    Puts p (among (closedNode start level links queue).tables.keys known)
      (among (closedNode start level links queue).filters.keys known) links := by
  intro link member
  cases link with
  | table ref =>
    have inTables : ref.node ∈ (closedNode start level links queue).tables.keys :=
      mem_tableKeys_closedNode.mpr ⟨ref, member, rfl⟩
    refine ⟨known ref.node, below _ (.inl inTables), if_pos inTables, if_neg ?_⟩
    intro inFilters
    obtain ⟨read, member', same⟩ := mem_filterKeys_closedNode.mp inFilters
    exact nomatch List.inj_on_of_nodup_map distinct member' member same
  | slot read =>
    have inFilters : read.ref.node ∈ (closedNode start level links queue).filters.keys :=
      mem_filterKeys_closedNode.mpr ⟨read, member, rfl⟩
    exact ⟨known read.ref.node, below _ (.inr inFilters), if_pos inFilters⟩

/-- A level that was searched and closed restores what it was. -/
theorem Closing.recovers {start : OpenNode} (closing : Closing p tops start level links)
    (after : (closeNode start level links p).2 = p') {original : Query}
    (recovers : ∀ p'' tables slots, p.Extends p'' → Puts p'' tables slots links →
      (level.graft tables slots).Recovers original) {p'' : Plan} (later : p'.Extends p'') {r : Query}
    (restores : p''.Restores start.id r) : r.Recovers original := by
  obtain ⟨_, _, keeps, own, _⟩ := closing.result after
  obtain ⟨parents, broadcasts, found⟩ := later _ _ own
  cases restores with
  | node found' below =>
    cases found.symm.trans found'
    exact recovers p'' _ _ (keeps.trans later) (puts_closedNode start level ⟨p.nextQueue⟩ closing.distinct below)

/-- The search of an aggregate level, once it is closed, has one link and has cut out the level. -/
theorem Searched.close (sound : p.Sound tops) (fresh : p.Fresh)
    (searched : Searched tops p.afterOpening p' links cuts)
    (placed : level.placeholders.Perm (links.map Link.ref))
    (recovers : ∀ p'' tables slots, p'.Extends p'' → Puts p'' tables slots links →
      (level.graft tables slots).Recovers q)
    (aggregates : q.isAggregateLevel = true) (same : level.isAggregateLevel = q.isAggregateLevel)
    {link : Link} (own : link.node = ⟨p.nextNode⟩) (table : link.ref.table = p.numberedTable p.identifiers) :
    Searched tops p (closeNode (p.opened q) { level with asName := none } links p').2 [link]
      (q :: cuts) := by
  have closing : Closing p' tops (p.opened q) { level with asName := none } links :=
    Searched.closing sound fresh searched (level.placeholders_rename none ▸ placed)
  obtain ⟨sound', fresh', keeps, closed, other, frame, nodes, queues, names⟩ := closing.result rfl
  have grown : Grown p p' := (grown_afterOpening fresh).trans searched.grown
  have nextNode : p'.nextNode = p.nextNode + 1 + cuts.length := searched.count
  constructor
  case grown =>
    refine ⟨grown.toSameFrame.trans frame, nodes ▸ grown.nextNode,
      Nat.le_trans grown.nextQueue queues, names ▸ grown.identifiers, ?_, ?_⟩
    · intro id below
      refine (other ?_ ?_).trans (grown.old below)
      · rintro rfl
        exact Nat.lt_irrefl _ below
      · intro linked
        obtain ⟨link, member, rfl⟩ := List.mem_map.mp linked
        have above : p.nextNode + 1 ≤ link.node.index := searched.new link member
        omega
    · intro id n found above
      by_cases here : id = (p.opened q).id
      · subst here
        cases closed.symm.trans found
        exact ⟨p.identifiers, Nat.le_refl _, rfl⟩
      · by_cases linked : id ∈ links.map Link.node
        · obtain ⟨link, member, rfl⟩ := List.mem_map.mp linked
          obtain ⟨m, there, _⟩ := searched.stored link member
          obtain ⟨_, _, found'⟩ := keeps _ _ there
          cases found.symm.trans found'
          obtain ⟨k, drawn, named⟩ := grown.new there above
          exact ⟨k, drawn, named⟩
        · exact grown.new ((other here linked).symm.trans found) above
  case sound =>
    rw [List.map_singleton, own]
    exact sound'
  case fresh => exact fresh'
  case new =>
    intro link' member
    rw [List.mem_singleton.mp member, own]
  case distinct => exact List.nodup_singleton _
  case stored =>
    intro link' member
    rw [List.mem_singleton.mp member, own]
    refine ⟨_, closed, table, same.trans aggregates, ?_⟩
    simp [closedNode, Node.new, opened, aggregates]
  case count => rw [nodes, nextNode, List.length_cons, Nat.add_assoc, Nat.add_comm 1]
  case cut =>
    rw [List.length_cons, List.range'_succ]
    refine .cons ⟨⟨_, closed⟩, ?_⟩ (searched.cut.imp fun index cut here => ⟨?_, ?_⟩)
    · intro p'' r later restores
      refine closing.recovers rfl ?_ later restores
      intro plan tables slots extended puts
      rw [Query.graft_rename]
      exact (recovers plan tables slots extended puts).rename none
    · obtain ⟨n, found⟩ := here.1
      obtain ⟨_, _, found'⟩ := keeps _ _ found
      exact ⟨_, found'⟩
    · exact fun p'' r later => here.2 p'' r (keeps.trans later)

end Closing

end ApproxQuery.Plan
