import ApproxQuery.Proofs.Query.FillingInPlace

/-! What filling takes from a query and what it brings: the placeholders that it counts are gone, each has
brought those of the content, and those of other nodes stay. -/
namespace ApproxQuery

namespace Query

/-- How often a query reads a node. -/
def occurrences (q : Query) (node : NodeId) : Nat := q.placeholders.countP fun ref => ref.node = node

/-- The placeholders of a node that stand in its markers. -/
def markedRefs (node : NodeId) (q : Query) : List PlaceholderRef :=
  q.levels.flatMap fun level => if level.marker? = some node then level.directPlaceholders else []

/-- At so many places the content came in place of a node: those are gone, and each brought what the
content reads. -/
structure Exchanged (node : NodeId) (content before after : Query) (places : Nat) : Prop where
  gone : after.occurrences node + places = before.occurrences node
  brought : ∀ other, other ≠ node →
    after.occurrences other = before.occurrences other + places * content.occurrences other

variable {node : NodeId} {q content : Query}

private theorem exchanged_of_balance {after : Query} {refs : List PlaceholderRef}
    (balance : ∀ f : PlaceholderRef → Nat, (after.placeholders.map f).sum + (refs.map f).sum
      = (q.placeholders.map f).sum + refs.length * (content.placeholders.map f).sum)
    (own : ∀ ref ∈ refs, ref.node = node) (closed : content.occurrences node = 0) :
    Exchanged node content q after refs.length := by
  have counted (other : NodeId) : after.occurrences other + refs.countP (fun ref => ref.node = other)
      = q.occurrences other + refs.length * content.occurrences other := by
    have balanced := balance fun ref => if decide (ref.node = other) then 1 else 0
    simp only [sum_indicator] at balanced
    exact balanced
  constructor
  · have all : refs.countP (fun ref => ref.node = node) = refs.length :=
      List.countP_eq_length.mpr fun ref member => decide_eq_true (own ref member)
    have here := counted node
    rwa [all, closed, Nat.mul_zero, Nat.add_zero] at here
  · intro other different
    have none : refs.countP (fun ref => ref.node = other) = 0 := by
      refine List.countP_eq_zero.mpr fun ref member => ?_
      rw [own ref member, decide_eq_true_eq]
      exact different.symm
    have there := counted other
    rwa [none, Nat.add_zero] at there

/-- What reads a node is what filling tables fills and what stands in markers. -/
theorem reads_perm (node : NodeId) (q : Query) : (q.placeholders.filter fun ref => ref.node = node).Perm
    (q.tableRefs node ++ q.markedRefs node) := by
  rw [placeholders, List.filter_flatMap]
  refine (List.Perm.of_eq (List.flatMap_congr fun level _ => ?_)).trans (List.flatMap_append_perm _ _ _).symm
  split
  · rename_i marker
    obtain ⟨ref, asName, own, rfl⟩ := marker?_eq_some.mp marker
    exact List.filter_eq_self.mpr fun _ only => decide_eq_true (List.mem_singleton.mp only ▸ own)
  · rw [List.append_nil]

theorem occurrences_eq_zero : content.occurrences node = 0 ↔ ∀ ref ∈ content.placeholders, ref.node ≠ node := by
  simp [occurrences, List.countP_eq_zero]

theorem exchanged_fillTables (q : Query) (closed : content.occurrences node = 0) :
    Exchanged node content q (q.fillTables node content) (q.tableSites node) :=
  exchanged_of_balance (sum_fillTables node content · q) (fun _ => node_of_mem_tableRefs) closed

theorem exchanged_fillMarkers (q : Query) (closed : content.occurrences node = 0) :
    Exchanged node content q (q.fillMarkers node content) (q.markerSites node) := by
  have sites := markerSites_eq node q
  rw [sites]
  exact exchanged_of_balance (fun f => sites ▸ sum_fillMarkers node content f q)
    (fun _ => node_of_mem_markerRefs) closed

/-- A query that does not read the node has nothing to fill. -/
theorem no_site_of_unread (closed : content.occurrences node = 0) :
    content.tableSites node = 0 ∧ content.markerSites node = 0 := by
  have none : (default : Query).occurrences node = 0 := rfl
  have tables := (exchanged_fillTables content none).gone
  have markers := (exchanged_fillMarkers content none).gone
  omega

/-- What filling tables leaves of the node is what stood in its markers. -/
theorem left_perm (closed : content.occurrences node = 0) :
    ((q.fillTables node content).placeholders.filter fun ref => ref.node = node).Perm (q.markedRefs node) := by
  refine List.perm_iff_count.mpr fun x => ?_
  have balanced := sum_fillTables node content
    (fun ref => if ref == x && decide (ref.node = node) then 1 else 0) q
  have parted := (reads_perm node q).count_eq x
  have filled : (q.tableRefs node).countP (fun ref => ref == x && decide (ref.node = node))
      = (q.tableRefs node).count x :=
    List.countP_congr fun ref member => by simp [node_of_mem_tableRefs member]
  have unread : content.placeholders.countP (fun ref => ref == x && decide (ref.node = node)) = 0 :=
    List.countP_eq_zero.mpr fun ref member => by simp [occurrences_eq_zero.mp closed ref member]
  simp only [sum_indicator, filled, unread, Nat.mul_zero, Nat.add_zero] at balanced
  rw [List.count_append, List.count_eq_countP, List.countP_filter] at parted
  rw [List.count_eq_countP, List.countP_filter]
  omega

private theorem node_of_direct {item : FromItem} {ref : PlaceholderRef}
    (direct : ref ∈ (item.fillTables node content).directPlaceholders) : ref.node ≠ node := by
  induction item using FromItem.treeInduction with
  | table t => cases direct
  | subquery q => cases direct
  | join left right kind on ihLeft ihRight =>
    rw [FromItem.fillTables_join] at direct
    exact (List.mem_append.mp direct).elim ihLeft ihRight
  | placeholder own =>
    rw [FromItem.fillTables_placeholder] at direct
    split at direct
    · cases direct
    · rename_i other
      exact List.mem_singleton.mp direct ▸ other

/-- Where filling tables leaves the node, it stands in a marker. -/
theorem marker_of_left (closed : content.occurrences node = 0) {level : Query}
    (member : level ∈ (q.fillTables node content).levels) {ref : PlaceholderRef}
    (direct : ref ∈ level.directPlaceholders) (own : ref.node = node) : level.marker? = some node := by
  induction q using nestedInduction with
  | level q ihListed ihSlotted =>
    by_cases marker : q.marker? = some node
    · rw [fillTables_of_marker node content marker] at member
      rcases mem_levels.mp member with rfl | ⟨sub, held, _⟩
      · exact marker
      · exact absurd held (not_held_of_marker marker)
    · rw [fillTables_of_not_marker node content marker] at member
      rcases mem_levels.mp member with rfl | ⟨sub, listed | slotted, inside⟩
      · obtain ⟨_, inList, inItem⟩ := List.mem_flatMap.mp direct
        obtain ⟨item, _, rfl⟩ := List.mem_map.mp inList
        exact absurd own (node_of_direct inItem)
      · obtain ⟨_, inList, inItem⟩ := List.mem_flatMap.mp listed
        obtain ⟨item, own', rfl⟩ := List.mem_map.mp inList
        rcases FromItem.listed_fillTables inItem with ⟨before, held, rfl⟩ | ⟨name, rfl⟩
        · exact ihListed before (List.mem_flatMap.mpr ⟨item, own', held⟩) inside
        · have read := List.mem_flatMap.mpr ⟨level, inside, direct⟩
          rw [← placeholders, placeholders_rename] at read
          exact absurd own (occurrences_eq_zero.mp closed ref read)
      · rw [slotted_mapParts] at slotted
        obtain ⟨before, held, rfl⟩ := List.mem_map.mp slotted
        exact ihSlotted before held inside

/-- Filling in place comes to an end, both ways, unless the query and the content each have something
to fill. With a content that does not read the node it ends with what filling makes: it takes away as
many placeholders of the node as it counts, and brings the content's own for each. What filling tables
leaves of the node are its markers. -/
theorem filling_exchanges (q content : Query) (node : NodeId) :
    ((∃ after count, Walked (visitTables node content) q after count)
        ↔ q.tableSites node = 0 ∨ content.tableSites node = 0)
      ∧ ((∃ after count, Walked (visitMarkers node content) q after count)
        ↔ q.markerSites node = 0 ∨ content.markerSites node = 0)
      ∧ (content.occurrences node = 0 →
        Walked (visitTables node content) q (q.fillTables node content) (q.tableSites node)
          ∧ Exchanged node content q (q.fillTables node content) (q.tableSites node)
          ∧ Walked (visitMarkers node content) q (q.fillMarkers node content) (q.markerSites node)
          ∧ Exchanged node content q (q.fillMarkers node content) (q.markerSites node)
          ∧ ((q.fillTables node content).placeholders.filter fun ref => ref.node = node).Perm (q.markedRefs node)
          ∧ ∀ level ∈ (q.fillTables node content).levels,
            (∃ ref ∈ level.directPlaceholders, ref.node = node) ↔ level.marker? = some node) := by
  refine ⟨(tableFilling node content).walked_iff, (markerFilling node content).walked_iff, fun closed => ?_⟩
  obtain ⟨tables, markers⟩ := no_site_of_unread closed
  refine ⟨(tableFilling node content).walked tables q, exchanged_fillTables q closed,
    (markerFilling node content).walked markers q, exchanged_fillMarkers q closed, left_perm closed,
    fun level member => ⟨?_, fun marker => ?_⟩⟩
  · rintro ⟨ref, direct, own⟩
    exact marker_of_left closed member direct own
  · obtain ⟨ref, asName, own, rfl⟩ := marker?_eq_some.mp marker
    exact ⟨ref, List.mem_cons_self, own⟩

section Sample

/-- `SELECT * FROM <1> AS a JOIN <1> AS b`: the other node is read twice. -/
def pairedRows : Query :=
  selectAll (.join (.placeholder ⟨⟨1⟩, ⟨"run", "rows"⟩, "a"⟩)
    (.placeholder ⟨⟨1⟩, ⟨"run", "rows"⟩, "b"⟩) .inner none)

/-- `SELECT count(*) FROM <0> AS o WHERE o.id IN (SELECT * FROM <0> AS k)`: the node is read as a table, and
in a slot. -/
def knownOrders : Query :=
  ⟨[⟨.func "count" [.star none] false, none⟩], [.placeholder ⟨⟨0⟩, ⟨"run", "orders"⟩, "o"⟩],
    some (.inSubquery (.column (some "o") "id")
      (selectAll (.placeholder ⟨⟨0⟩, ⟨"run", "orders"⟩, "k"⟩)) false), [], none, [], none, none⟩

/-- The node is taken away where it was read, the other one comes twice; put into itself, the query grows
without end. -/
theorem knownOrders_exchanged : pairedRows.occurrences ⟨0⟩ = 0 ∧ knownOrders.occurrences ⟨0⟩ = 2
    ∧ Walked (visitTables ⟨0⟩ pairedRows) knownOrders (knownOrders.fillTables ⟨0⟩ pairedRows) 1
    ∧ (knownOrders.fillTables ⟨0⟩ pairedRows).occurrences ⟨0⟩ = 1
    ∧ (knownOrders.fillTables ⟨0⟩ pairedRows).occurrences ⟨1⟩ = 2
    ∧ Walked (visitMarkers ⟨0⟩ pairedRows) knownOrders (knownOrders.fillMarkers ⟨0⟩ pairedRows) 1
    ∧ (knownOrders.fillMarkers ⟨0⟩ pairedRows).occurrences ⟨0⟩ = 1
    ∧ (knownOrders.fillMarkers ⟨0⟩ pairedRows).occurrences ⟨1⟩ = 2
    ∧ ¬ ∃ after count, Walked (visitTables ⟨0⟩ knownOrders) knownOrders after count := by
  have closed : pairedRows.occurrences ⟨0⟩ = 0 := rfl
  obtain ⟨_, _, exchanged⟩ := filling_exchanges knownOrders pairedRows ⟨0⟩
  obtain ⟨tables, inTables, markers, inSlots, _, _⟩ := exchanged closed
  obtain ⟨ends, _, _⟩ := filling_exchanges knownOrders knownOrders ⟨0⟩
  have other : (⟨1⟩ : NodeId) ≠ ⟨0⟩ := by decide
  have site : knownOrders.tableSites ⟨0⟩ = 1 := rfl
  refine ⟨closed, rfl, tables, Nat.add_right_cancel inTables.gone, inTables.brought ⟨1⟩ other,
    markers, Nat.add_right_cancel inSlots.gone, inSlots.brought ⟨1⟩ other, ?_⟩
  rw [ends, site]
  decide

end Sample

end Query

end ApproxQuery
