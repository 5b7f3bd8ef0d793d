import ApproxQuery.Proofs.Query.Levels

/-! What filling placeholders does to a level: it acts on the from-list and on the slots, and
keeps markers and aggregate levels what they are. -/
namespace ApproxQuery

variable (node : NodeId) (content : Query)

/-- An item with the placeholders of a node filled in its join tree and at all levels below. -/
def FromItem.fillTables (item : FromItem) : FromItem :=
  (item.mapLevels fun before level =>
    if before.marker? = some node then level
    else { level with fromList := level.fromList.map (FromItem.fill node content) }).fill node content

/-- An item with the markers of a node filled at all levels below. -/
def FromItem.fillMarkers (item : FromItem) : FromItem :=
  item.mapLevels fun _ level =>
    level.mapParts (fun item => item) (Expr.mapSlots fun slot =>
      if slot.marker? = some node then { content with asName := none } else slot)

namespace FromItem

@[simp] theorem fillTables_table (t : BaseTable) :
    (FromItem.table t).fillTables node content = .table t := rfl

@[simp] theorem fillTables_subquery (q : Query) :
    (FromItem.subquery q).fillTables node content = .subquery (q.fillTables node content) := rfl

@[simp] theorem fillTables_join (left right : FromItem) (kind : JoinKind) (on : Option Expr) :
    (FromItem.join left right kind on).fillTables node content
      = .join (left.fillTables node content) (right.fillTables node content) kind
          (on.map (Expr.mapSlots fun slot => slot.fillTables node content)) := by
  rw [fillTables, mapLevels_join]
  rfl

@[simp] theorem fillTables_placeholder (ref : PlaceholderRef) :
    (FromItem.placeholder ref).fillTables node content
      = if ref.node = node then .subquery { content with asName := some ref.asName }
        else .placeholder ref := rfl

end FromItem

private theorem fillMarkers_mapLevels (q : Query) :
    q.fillMarkers node content = q.mapLevels fun _ level =>
      level.mapParts (fun item => item) (Expr.mapSlots fun slot =>
        if slot.marker? = some node then { content with asName := none } else slot) := by
  unfold Query.fillMarkers
  congr 1
  funext _ level
  exact Query.changeExprs_pure _ level

namespace FromItem

@[simp] theorem fillMarkers_table (t : BaseTable) :
    (FromItem.table t).fillMarkers node content = .table t := rfl

@[simp] theorem fillMarkers_subquery (q : Query) :
    (FromItem.subquery q).fillMarkers node content = .subquery (q.fillMarkers node content) := by
  rw [fillMarkers_mapLevels]
  rfl

@[simp] theorem fillMarkers_join (left right : FromItem) (kind : JoinKind) (on : Option Expr) :
    (FromItem.join left right kind on).fillMarkers node content
      = .join (left.fillMarkers node content) (right.fillMarkers node content) kind
          (on.map (Expr.mapSlots fun slot => slot.fillMarkers node content)) := by
  rw [fillMarkers, mapLevels_join]
  simp only [fillMarkers_mapLevels]
  rfl

@[simp] theorem fillMarkers_placeholder (ref : PlaceholderRef) :
    (FromItem.placeholder ref).fillMarkers node content = .placeholder ref := rfl

@[simp] theorem directPlaceholders_fillMarkers (item : FromItem) :
    (item.fillMarkers node content).directPlaceholders = item.directPlaceholders := by
  induction item using FromItem.directPlaceholders.induct with
  | case1 ref => rfl
  | case2 left right kind on ihLeft ihRight =>
    rw [fillMarkers_join, directPlaceholders, ihLeft, ihRight, directPlaceholders]
  | case3 t => rfl
  | case4 q => rw [fillMarkers_subquery]; rfl

end FromItem

namespace Query

/-- A marker is `SELECT *` from one placeholder, under some alias. -/
theorem marker?_eq_some {node : NodeId} {q : Query} :
    q.marker? = some node ↔
      ∃ ref asName, ref.node = node ∧ q = { selectAll (.placeholder ref) with asName } := by
  constructor
  · intro found
    unfold marker? at found
    split at found
    · rename_i ref asName
      exact ⟨ref, asName, Option.some.inj found, rfl⟩
    · cases found
  · rintro ⟨ref, asName, same, rfl⟩
    exact congrArg some same

theorem marker?_rename (q : Query) (asName : Option String) :
    ({ q with asName } : Query).marker? = q.marker? := by
  rcases q with ⟨selectList, fromList, filter, groupBy, having, orderBy, limit, own⟩
  refine Option.ext fun node => ?_
  rw [marker?_eq_some, marker?_eq_some]
  constructor
  · rintro ⟨ref, _, here, whole⟩
    cases whole
    exact ⟨ref, own, here, rfl⟩
  · rintro ⟨ref, _, here, whole⟩
    cases whole
    exact ⟨ref, asName, here, rfl⟩

theorem not_isAggregateLevel_of_marker {node : NodeId} {q : Query}
    (marker : q.marker? = some node) : q.isAggregateLevel = false := by
  obtain ⟨ref, asName, _, rfl⟩ := marker?_eq_some.mp marker
  rfl

private theorem mapSlots_eq_star {change : Query → Query} {e : Expr} {table : Option String} :
    e.mapSlots change = .star table ↔ e = .star table := by
  constructor
  · intro same
    cases e <;> first | exact same | simp at same
  · rintro rfl
    rfl

/-- A change that makes no placeholder, and keeps that of a marker, neither makes nor destroys a
marker. -/
theorem marker?_mapParts {onItem : FromItem → FromItem} {change : Query → Query} {q : Query}
    (made : ∀ item ∈ q.fromList, ∀ ref, onItem item = .placeholder ref → item = .placeholder ref)
    (kept : ∀ ref, q.marker? = some ref.node → onItem (.placeholder ref) = .placeholder ref) :
    (q.mapParts onItem (Expr.mapSlots change)).marker? = q.marker? := by
  refine Option.ext fun node => ?_
  constructor
  · intro found
    obtain ⟨ref, asName', here, whole⟩ := marker?_eq_some.mp found
    rcases q with ⟨selectList, fromList, filter, groupBy, having, orderBy, limit, asName⟩
    simp only [mapParts, selectAll, Query.mk.injEq, List.map_eq_cons_iff, List.map_eq_nil_iff,
      Option.map_eq_none_iff, SelectItem.mk.injEq] at whole
    obtain ⟨⟨⟨e, _⟩, _, rfl, ⟨star, unnamed⟩, rfl⟩, ⟨item, _, rfl, placed, rfl⟩, rfl, rfl, rfl, rfl,
      rfl, rfl⟩ := whole
    have starred : e = .star none := mapSlots_eq_star.mp star
    subst unnamed starred
    rw [made item List.mem_cons_self ref placed]
    exact marker?_eq_some.mpr ⟨ref, asName, here, rfl⟩
  · intro found
    obtain ⟨ref, asName, here, whole⟩ := marker?_eq_some.mp found
    have placed := kept ref (here ▸ found)
    refine marker?_eq_some.mpr ⟨ref, asName, here, ?_⟩
    rw [whole]
    simp [mapParts, selectAll, placed]

theorem fillTables_of_not_marker {q : Query} (unmarked : q.marker? ≠ some node) :
    q.fillTables node content
      = q.mapParts (FromItem.fillTables node content)
          (Expr.mapSlots fun slot => slot.fillTables node content) := by
  have whole := mapLevels_eq (fun before level => if before.marker? = some node then level
    else { level with fromList := level.fromList.map (FromItem.fill node content) }) q
  rw [if_neg unmarked] at whole
  refine Eq.trans whole ?_
  simp only [mapParts, List.map_map]
  rfl

/-- Filling tables leaves a marker of the node alone. -/
theorem fillTables_of_marker {q : Query} (marker : q.marker? = some node) :
    q.fillTables node content = q := by
  obtain ⟨ref, asName, same, rfl⟩ := marker?_eq_some.mp marker
  have whole := mapLevels_eq (fun before level => if before.marker? = some node then level
    else { level with fromList := level.fromList.map (FromItem.fill node content) })
    { selectAll (.placeholder ref) with asName }
  rw [if_pos marker] at whole
  exact whole

@[simp] theorem marker?_fillTables (q : Query) :
    (q.fillTables node content).marker? = q.marker? := by
  by_cases marker : q.marker? = some node
  · rw [fillTables_of_marker node content marker]
  · rw [fillTables_of_not_marker node content marker]
    apply marker?_mapParts
    · intro item _ ref placed
      cases item with
      | table t => cases placed
      | subquery q => cases placed
      | join left right kind on => rw [FromItem.fillTables_join] at placed; cases placed
      | placeholder own =>
        rw [FromItem.fillTables_placeholder] at placed
        split at placed
        · cases placed
        · exact placed
    · intro ref found
      have different : ref.node ≠ node := fun same => marker (same ▸ found)
      rw [FromItem.fillTables_placeholder, if_neg different]

@[simp] theorem marker?_fillMarkers (q : Query) :
    (q.fillMarkers node content).marker? = q.marker? := by
  rw [fillMarkers_mapLevels, mapLevels_eq, mapParts_mapParts]
  simp only [Expr.mapSlots_mapSlots]
  apply marker?_mapParts
  · intro item _ ref placed
    cases item with
    | table t => cases placed
    | subquery q => cases placed
    | join left right kind on => rw [FromItem.mapLevels_join] at placed; cases placed
    | placeholder own => exact placed
  · intro ref _
    rfl

/-- Filling markers, one level at a time: the slots that hold a marker take the content. -/
theorem fillMarkers_eq (q : Query) :
    q.fillMarkers node content
      = q.mapParts (FromItem.fillMarkers node content) (Expr.mapSlots fun slot =>
          if slot.marker? = some node then { content with asName := none }
          else slot.fillMarkers node content) := by
  rw [fillMarkers_mapLevels, mapLevels_eq, mapParts_mapParts]
  refine mapParts_congr (fun item _ => rfl) fun e _ => ?_
  rw [Expr.mapSlots_mapSlots]
  simp only [← fillMarkers_mapLevels, marker?_fillMarkers]

@[simp] theorem asName_fillTables (q : Query) :
    (q.fillTables node content).asName = q.asName := by
  by_cases marker : q.marker? = some node
  · rw [fillTables_of_marker node content marker]
  · rw [fillTables_of_not_marker node content marker, asName_mapParts]

@[simp] theorem asName_fillMarkers (q : Query) :
    (q.fillMarkers node content).asName = q.asName := by
  rw [fillMarkers_eq, asName_mapParts]

@[simp] theorem isAggregateLevel_fillTables (q : Query) :
    (q.fillTables node content).isAggregateLevel = q.isAggregateLevel := by
  by_cases marker : q.marker? = some node
  · rw [fillTables_of_marker node content marker]
  · rw [fillTables_of_not_marker node content marker]
    exact isAggregateLevel_mapParts (Expr.containsAggregate_mapSlots _) q

@[simp] theorem isAggregateLevel_fillMarkers (q : Query) :
    (q.fillMarkers node content).isAggregateLevel = q.isAggregateLevel := by
  rw [fillMarkers_eq]
  exact isAggregateLevel_mapParts (Expr.containsAggregate_mapSlots _) q

end Query

end ApproxQuery
