import ApproxQuery.Estimate.Increment
import ApproxQuery.Scramble.Catalog

/-! Which queries have increments that estimate the whole answer: every aggregate can be put
together from block prefixes, and every total over scrambled rows is scaled once. -/
namespace ApproxQuery

def decomposableAggregates : List String := ["sum", "count", "avg"]

def isDecomposable (name : String) : Bool := decomposableAggregates.contains (lowerAscii name)

/-- The name under which a call that cannot be put together is reported. DISTINCT rules out
every aggregate. -/
def nonDecomposableCall : Expr → Option String
  | .func name _ distinct =>
    if distinct then some (lowerAscii name ++ " DISTINCT")
    else if isDecomposable name then none
    else some (lowerAscii name)
  | _ => none

/-- Why the increments of a query would not estimate it. -/
inductive Unscalable where
  | subqueryOver (table : TableName)
  | aggregateOfAggregates (table : TableName)
deriving DecidableEq, Repr

def Unscalable.text : Unscalable → String
  | subqueryOver table => "sub-query over " ++ table.dotted ++ " in an expression"
  | aggregateOfAggregates table => "aggregate over pre-aggregated rows of " ++ table.dotted

mutual

/-- Every derived table that reaches the table passes its rows on without aggregating. -/
def Query.rowsOnly (table : TableName) : Query → Bool
  | ⟨_, fromList, _, _, _, _, _, _⟩ => FromItem.rowsOnlyIn table fromList

def FromItem.rowsOnly (table : TableName) : FromItem → Bool
  | .subquery query =>
    !query.readsTable table || (!query.isAggregateLevel && query.rowsOnly table)
  | .join left right _ _ => left.rowsOnly table && right.rowsOnly table
  | .table _ => true
  | .placeholder _ => true

def FromItem.rowsOnlyIn (table : TableName) : List FromItem → Bool
  | [] => true
  | item :: rest => item.rowsOnly table && FromItem.rowsOnlyIn table rest

end

/-- The output names of scaled totals, by the alias of the derived table that computes them. -/
abbrev Totals := AscendingMap String (List String)

/-- The alias of an output that is a plain SUM or COUNT. -/
def SelectItem.totalName (item : SelectItem) : Option String :=
  match item.expr with
  | .func name _ distinct => if !distinct && isScaledAggregate name then item.asName else none
  | _ => none

/-- A call is `sum(alias.column)` over a scaled total. -/
def Totals.isSummedBy (totals : Totals) : Expr → Bool
  | .func name [.column (some asName) column] false =>
    lowerAscii name = "sum" && ((totals.find? asName).getD []).contains column
  | _ => false

namespace Query

/-- Names of the outputs that are plain SUM or COUNT totals. -/
def scaledOutputs (q : Query) : List String := q.selectList.filterMap SelectItem.totalName

/-- The expressions in which aggregates are scaled. -/
def scaledExprs (q : Query) : List Expr :=
  q.selectList.map SelectItem.expr ++ q.having.toList ++ q.orderBy.map OrderItem.expr

/-- Every aggregate of the level sums a scaled total. -/
def sumsTotals (totals : Totals) (q : Query) : Bool :=
  (q.scaledExprs.flatMap Expr.aggregates).all totals.isSummedBy

/-- The scaled totals of the derived tables that read the table. There is no answer when some
other aggregation of its rows comes in. -/
def totalsOf (table : TableName) (totals : Totals) : List Query → Option Totals
  | [] => some totals
  | d :: rest =>
    if !d.readsTable table then totalsOf table totals rest
    else if d.isAggregateLevel then
      match d.asName with
      | some asName => totalsOf table (totals.insert asName d.scaledOutputs) rest
      | none => none
    else if d.rowsOnly table then totalsOf table totals rest
    else none

/-- Why one level cannot be scaled. -/
def levelUnscalable (table : TableName) (q : Query) : Option Unscalable :=
  if ((q.exprs ++ q.joinConditions).flatMap Expr.slots).any fun slot => slot.2.readsTable table then
    some (.subqueryOver table)
  else if !q.isAggregateLevel then none
  else match totalsOf table AscendingMap.empty q.directSubqueries with
    | none => some (.aggregateOfAggregates table)
    | some totals =>
      if totals.isEmpty then none
      else if q.readsRows table || !q.sumsTotals totals then some (.aggregateOfAggregates table)
      else none

/-- The reason of the first level that cannot be scaled. -/
def unscalable? (table : TableName) (q : Query) : Option Unscalable :=
  q.levels.findSome? (levelUnscalable table)

/-- The first aggregate call, at any level, that cannot be put together from block prefixes. -/
def nonDecomposable? (q : Query) : Option String :=
  q.levels.findSome? fun level =>
    (level.exprs.flatMap Expr.aggregates).findSome? nonDecomposableCall

/-- The first base table that has a scramble. -/
def progressTable? (catalog : Catalog) (q : Query) : Option ScrambleMeta :=
  q.baseTables.findSome? fun t => catalog.find? t.name

end Query

end ApproxQuery
