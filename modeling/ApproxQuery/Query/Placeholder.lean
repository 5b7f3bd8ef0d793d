import ApproxQuery.Query.Walk

/-! Placeholders and the two ways of putting a query back in their place: as a derived table
in a from-list, or in a sub-query slot whose query is a marker. -/
namespace ApproxQuery

/-- The node of a query that is exactly `SELECT * FROM placeholder`, whatever its alias. -/
def Query.marker? : Query → Option NodeId
  | ⟨[⟨.star none, none⟩], [.placeholder ref], none, [], none, [], none, _⟩ => some ref.node
  | _ => none

/-- Puts a derived table where a join tree reads the node's stored result; it takes the
placeholder's alias. -/
def FromItem.fill (node : NodeId) (content : Query) : FromItem → FromItem
  | .placeholder ref =>
    if ref.node = node then .subquery { content with asName := some ref.asName }
    else .placeholder ref
  | .join left right kind on => .join (left.fill node content) (right.fill node content) kind on
  | .table t => .table t
  | .subquery query => .subquery query

namespace Query

/-- Fills the from-list placeholders of the node at every level, markers excepted. -/
def fillTables (q : Query) (node : NodeId) (content : Query) : Query :=
  q.mapLevels fun before level =>
    if before.marker? = some node then level
    else { level with fromList := level.fromList.map (FromItem.fill node content) }

/-- How many placeholders `fillTables` fills. -/
def tableSites (q : Query) (node : NodeId) : Nat :=
  (q.levels.flatMap fun level =>
    if level.marker? = some node then []
    else level.directPlaceholders.filter fun ref => ref.node = node).length

/-- Puts the content, without an alias, into every slot of a level's expressions that holds a
marker of the node. Join conditions are not among those expressions. -/
def fillMarkers (q : Query) (node : NodeId) (content : Query) : Query :=
  q.mapLevels fun _ level =>
    Id.run (level.changeExprs (Expr.replaceSlots fun _ slot => pure
      (if slot.marker? = some node then { content with asName := none } else slot)))

/-- How many slots `fillMarkers` fills. -/
def markerSites (q : Query) (node : NodeId) : Nat :=
  (q.levels.flatMap fun level =>
    (level.exprs.flatMap Expr.slots).filter fun slot => slot.2.marker? = some node).length

end Query

end ApproxQuery
