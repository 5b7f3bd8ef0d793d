import ApproxQuery.Query.Level

/-! Walks over a query and every query nested in it: a level comes first, then its
from-list (an `ON` condition after both join sides), then its expressions. -/
namespace ApproxQuery

mutual

/-- The query and all queries nested in it, each before what it holds. -/
def Query.levels : Query → List Query
  | ⟨selectList, fromList, filter, groupBy, having, orderBy, limit, asName⟩ =>
    ⟨selectList, fromList, filter, groupBy, having, orderBy, limit, asName⟩ ::
      (FromItem.levelsIn fromList ++ SelectItem.levelsIn selectList
        ++ (match filter with | some e => e.levels | none => [])
        ++ Expr.levelsIn groupBy
        ++ (match having with | some e => e.levels | none => [])
        ++ OrderItem.levelsIn orderBy)

def Expr.levels : Expr → List Query
  | .subquery query => query.levels
  | .inSubquery operand query _ => operand.levels ++ query.levels
  | .existsSubquery query _ => query.levels
  | .func _ args _ => Expr.levelsIn args
  | .binary _ left right => left.levels ++ right.levels
  | .not operand => operand.levels
  | .isNull operand _ => operand.levels
  | .column _ _ => []
  | .literal _ => []
  | .star _ => []

def FromItem.levels : FromItem → List Query
  | .subquery query => query.levels
  | .join left right _ on =>
    left.levels ++ right.levels ++ (match on with | some e => e.levels | none => [])
  | .table _ => []
  | .placeholder _ => []

def Expr.levelsIn : List Expr → List Query
  | [] => []
  | e :: rest => e.levels ++ Expr.levelsIn rest

def SelectItem.levelsIn : List SelectItem → List Query
  | [] => []
  | ⟨e, _⟩ :: rest => e.levels ++ SelectItem.levelsIn rest

def OrderItem.levelsIn : List OrderItem → List Query
  | [] => []
  | ⟨e, _⟩ :: rest => e.levels ++ OrderItem.levelsIn rest

def FromItem.levelsIn : List FromItem → List Query
  | [] => []
  | item :: rest => item.levels ++ FromItem.levelsIn rest

end

section Changing

variable {m : Type → Type} [Monad m]

mutual

/-- Visits every level in the order of `Query.levels`. A visit answers with a change to that
level, applied once the queries nested in the level have been changed. -/
def Query.changeLevels (visit : Query → m (Query → Query)) : Query → m Query
  | ⟨selectList, fromList, filter, groupBy, having, orderBy, limit, asName⟩ => do
    let change ← visit ⟨selectList, fromList, filter, groupBy, having, orderBy, limit, asName⟩
    let fromList ← FromItem.changeLevelsIn visit fromList
    let selectList ← SelectItem.changeLevelsIn visit selectList
    let filter ← match filter with
      | some e => some <$> e.changeLevels visit
      | none => pure none
    let groupBy ← Expr.changeLevelsIn visit groupBy
    let having ← match having with
      | some e => some <$> e.changeLevels visit
      | none => pure none
    let orderBy ← OrderItem.changeLevelsIn visit orderBy
    return change ⟨selectList, fromList, filter, groupBy, having, orderBy, limit, asName⟩

def Expr.changeLevels (visit : Query → m (Query → Query)) : Expr → m Expr
  | .subquery query => do return .subquery (← query.changeLevels visit)
  | .inSubquery operand query negated => do
    return .inSubquery (← operand.changeLevels visit) (← query.changeLevels visit) negated
  | .existsSubquery query negated => do
    return .existsSubquery (← query.changeLevels visit) negated
  | .func name args distinct => do
    return .func name (← Expr.changeLevelsIn visit args) distinct
  | .binary op left right => do
    return .binary op (← left.changeLevels visit) (← right.changeLevels visit)
  | .not operand => do return .not (← operand.changeLevels visit)
  | .isNull operand negated => do return .isNull (← operand.changeLevels visit) negated
  | .column table name => pure (.column table name)
  | .literal value => pure (.literal value)
  | .star table => pure (.star table)

def FromItem.changeLevels (visit : Query → m (Query → Query)) : FromItem → m FromItem
  | .subquery query => do return .subquery (← query.changeLevels visit)
  | .join left right kind on => do
    let left ← left.changeLevels visit
    let right ← right.changeLevels visit
    let on ← match on with
      | some e => some <$> e.changeLevels visit
      | none => pure none
    return .join left right kind on
  | .table t => pure (.table t)
  | .placeholder ref => pure (.placeholder ref)

def Expr.changeLevelsIn (visit : Query → m (Query → Query)) : List Expr → m (List Expr)
  | [] => pure []
  | e :: rest => do
    return (← e.changeLevels visit) :: (← Expr.changeLevelsIn visit rest)

def SelectItem.changeLevelsIn (visit : Query → m (Query → Query)) :
    List SelectItem → m (List SelectItem)
  | [] => pure []
  | ⟨e, asName⟩ :: rest => do
    return ⟨← e.changeLevels visit, asName⟩ :: (← SelectItem.changeLevelsIn visit rest)

def OrderItem.changeLevelsIn (visit : Query → m (Query → Query)) :
    List OrderItem → m (List OrderItem)
  | [] => pure []
  | ⟨e, descending⟩ :: rest => do
    return ⟨← e.changeLevels visit, descending⟩ :: (← OrderItem.changeLevelsIn visit rest)

def FromItem.changeLevelsIn (visit : Query → m (Query → Query)) :
    List FromItem → m (List FromItem)
  | [] => pure []
  | item :: rest => do
    return (← item.changeLevels visit) :: (← FromItem.changeLevelsIn visit rest)

end

end Changing

namespace Query

/-- Changes every level, given the level as it was and the level with its nested queries
already changed. -/
def mapLevels (change : Query → Query → Query) (q : Query) : Query :=
  Id.run (q.changeLevels fun before => pure (change before))

/-- Base tables of all levels, a level's own before those nested in it. -/
def baseTables (q : Query) : List BaseTable := q.levels.flatMap directTables

/-- Placeholders of all levels. -/
def placeholders (q : Query) : List PlaceholderRef := q.levels.flatMap directPlaceholders

/-- This level aggregates, or some query in its from-list or filter does. -/
def isAggregate (q : Query) : Bool :=
  q.isAggregateLevel
    || (FromItem.levelsIn q.fromList).any isAggregateLevel
    || q.filter.any fun e => e.levels.any isAggregateLevel

end Query

end ApproxQuery
