import ApproxQuery.Query.Basic
import ApproxQuery.Ascending

/-! What one query level holds of its own: its expressions, aggregate calls, column
qualifiers, sub-query slots and from-list names. Nested queries are not entered. -/
namespace ApproxQuery

/-- Lower-case names of the aggregate functions. -/
def aggregateFunctions : List String :=
  ["sum", "count", "avg", "min", "max", "stddev", "stddev_samp", "variance", "var_samp", "median"]

/-- ASCII lower case; all other characters stay. -/
def lowerAscii (s : String) : String := String.ofList (s.toList.map Char.toLower)

/-- Function names compare without regard to ASCII case. -/
def isAggregateFunction (name : String) : Bool := aggregateFunctions.contains (lowerAscii name)

def Expr.isAggregateCall : Expr → Bool
  | .func name _ _ => isAggregateFunction name
  | _ => false

mutual

/-- Aggregate calls from left to right; their arguments and sub-queries are not entered. -/
def Expr.aggregates : Expr → List Expr
  | .func name args distinct =>
    if isAggregateFunction name then [.func name args distinct] else Expr.aggregatesIn args
  | .binary _ left right => left.aggregates ++ right.aggregates
  | .not operand => operand.aggregates
  | .isNull operand _ => operand.aggregates
  | .inSubquery operand _ _ => operand.aggregates
  | _ => []

def Expr.aggregatesIn : List Expr → List Expr
  | [] => []
  | e :: rest => e.aggregates ++ Expr.aggregatesIn rest

end

/-- An aggregate is called at this expression's own level. -/
def Expr.containsAggregate (e : Expr) : Bool := !e.aggregates.isEmpty

section Changing

variable {m : Type → Type} [Monad m]

mutual

/-- Replaces every aggregate call by what `replace` makes of it, from left to right. -/
def Expr.replaceAggregates (replace : Expr → m Expr) : Expr → m Expr
  | .func name args distinct =>
    if isAggregateFunction name then replace (.func name args distinct)
    else do return .func name (← Expr.replaceAggregatesIn replace args) distinct
  | .binary op left right => do
    return .binary op (← left.replaceAggregates replace) (← right.replaceAggregates replace)
  | .not operand => do return .not (← operand.replaceAggregates replace)
  | .isNull operand negated => do return .isNull (← operand.replaceAggregates replace) negated
  | .inSubquery operand query negated => do
    return .inSubquery (← operand.replaceAggregates replace) query negated
  | .column table name => pure (.column table name)
  | .literal value => pure (.literal value)
  | .star table => pure (.star table)
  | .subquery query => pure (.subquery query)
  | .existsSubquery query negated => pure (.existsSubquery query negated)

def Expr.replaceAggregatesIn (replace : Expr → m Expr) : List Expr → m (List Expr)
  | [] => pure []
  | e :: rest => do
    return (← e.replaceAggregates replace) :: (← Expr.replaceAggregatesIn replace rest)

end

mutual

/-- Replaces the query in every sub-query slot, from left to right. -/
def Expr.replaceSlots (replace : SubqueryKind → Query → m Query) : Expr → m Expr
  | .subquery query => do return .subquery (← replace .scalar query)
  | .inSubquery operand query negated => do
    return .inSubquery (← operand.replaceSlots replace) (← replace .membership query) negated
  | .existsSubquery query negated => do
    return .existsSubquery (← replace .existence query) negated
  | .func name args distinct => do
    return .func name (← Expr.replaceSlotsIn replace args) distinct
  | .binary op left right => do
    return .binary op (← left.replaceSlots replace) (← right.replaceSlots replace)
  | .not operand => do return .not (← operand.replaceSlots replace)
  | .isNull operand negated => do return .isNull (← operand.replaceSlots replace) negated
  | .column table name => pure (.column table name)
  | .literal value => pure (.literal value)
  | .star table => pure (.star table)

def Expr.replaceSlotsIn (replace : SubqueryKind → Query → m Query) : List Expr → m (List Expr)
  | [] => pure []
  | e :: rest => do
    return (← e.replaceSlots replace) :: (← Expr.replaceSlotsIn replace rest)

end

end Changing

mutual

/-- Sub-query slots from left to right, with how each is consumed. -/
def Expr.slots : Expr → List (SubqueryKind × Query)
  | .subquery query => [(.scalar, query)]
  | .inSubquery operand query _ => operand.slots ++ [(.membership, query)]
  | .existsSubquery query _ => [(.existence, query)]
  | .func _ args _ => Expr.slotsIn args
  | .binary _ left right => left.slots ++ right.slots
  | .not operand => operand.slots
  | .isNull operand _ => operand.slots
  | .column _ _ => []
  | .literal _ => []
  | .star _ => []

def Expr.slotsIn : List Expr → List (SubqueryKind × Query)
  | [] => []
  | e :: rest => e.slots ++ Expr.slotsIn rest

end

mutual

/-- Table qualifiers of the columns and stars at this expression's own level. -/
def Expr.qualifiers : Expr → List String
  | .column table _ => table.toList
  | .star table => table.toList
  | .func _ args _ => Expr.qualifiersIn args
  | .binary _ left right => left.qualifiers ++ right.qualifiers
  | .not operand => operand.qualifiers
  | .isNull operand _ => operand.qualifiers
  | .inSubquery operand _ _ => operand.qualifiers
  | .literal _ => []
  | .subquery _ => []
  | .existsSubquery _ _ => []

def Expr.qualifiersIn : List Expr → List String
  | [] => []
  | e :: rest => e.qualifiers ++ Expr.qualifiersIn rest

end

/-- Names an item binds for the column references of the query around it. -/
def FromItem.boundNames : FromItem → List String
  | .table t => [t.referenceName]
  | .subquery query => query.asName.toList
  | .join left right _ _ => left.boundNames ++ right.boundNames
  | .placeholder ref => [ref.asName]

/-- Base tables of an item's join tree. -/
def FromItem.directTables : FromItem → List BaseTable
  | .table t => [t]
  | .join left right _ _ => left.directTables ++ right.directTables
  | .subquery _ => []
  | .placeholder _ => []

/-- Derived tables of an item's join tree. -/
def FromItem.directSubqueries : FromItem → List Query
  | .subquery query => [query]
  | .join left right _ _ => left.directSubqueries ++ right.directSubqueries
  | .table _ => []
  | .placeholder _ => []

/-- Placeholders of an item's join tree. -/
def FromItem.directPlaceholders : FromItem → List PlaceholderRef
  | .placeholder ref => [ref]
  | .join left right _ _ => left.directPlaceholders ++ right.directPlaceholders
  | .table _ => []
  | .subquery _ => []

/-- The `ON` conditions of an item's join tree, inner joins first. -/
def FromItem.joinConditions : FromItem → List Expr
  | .join left right _ on => left.joinConditions ++ right.joinConditions ++ on.toList
  | .table _ => []
  | .subquery _ => []
  | .placeholder _ => []

namespace Query

/-- A level's expressions: select list, filter, GROUP BY, HAVING, ORDER BY. -/
def exprs (q : Query) : List Expr :=
  q.selectList.map SelectItem.expr ++ q.filter.toList ++ q.groupBy ++ q.having.toList
    ++ q.orderBy.map OrderItem.expr

/-- A level aggregates when it groups, or calls an aggregate in its select list or HAVING. -/
def isAggregateLevel (q : Query) : Bool :=
  !q.groupBy.isEmpty
    || q.selectList.any (fun item => item.expr.containsAggregate)
    || q.having.any Expr.containsAggregate

/-- Names bound by the from-list. -/
def boundNames (q : Query) : List String := q.fromList.flatMap FromItem.boundNames

def directTables (q : Query) : List BaseTable := q.fromList.flatMap FromItem.directTables

def directSubqueries (q : Query) : List Query := q.fromList.flatMap FromItem.directSubqueries

def directPlaceholders (q : Query) : List PlaceholderRef :=
  q.fromList.flatMap FromItem.directPlaceholders

def joinConditions (q : Query) : List Expr := q.fromList.flatMap FromItem.joinConditions

end Query

section Changing

variable {m : Type → Type} [Monad m]

/-- Changes the expressions in the order of `Query.exprs`. -/
def Query.changeExprs (change : Expr → m Expr) (q : Query) : m Query := do
  let selectList ← q.selectList.mapM fun item => return { item with expr := ← change item.expr }
  let filter ← q.filter.mapM change
  let groupBy ← q.groupBy.mapM change
  let having ← q.having.mapM change
  let orderBy ← q.orderBy.mapM fun item => return { item with expr := ← change item.expr }
  return { q with selectList, filter, groupBy, having, orderBy }

end Changing

end ApproxQuery
