import ApproxQuery.Query.Scope
import ApproxQuery.Query.Walk
import ApproxQuery.Plan.Error

/-! Which queries can be planned: some level aggregates, no aggregate sub-query stands where it
cannot be taken out, and no reference is left unbound. -/
namespace ApproxQuery

/-- A slot whose query aggregates and could be evaluated on its own. -/
def Expr.holdsAggregate (e : Expr) : Bool :=
  e.slots.any fun slot => slot.2.isAggregate && !slot.2.isCorrelated

/-- No expression of the clause holds an aggregate sub-query. -/
def Clause.check (clause : Clause) (exprs : List Expr) : Except PlanError Unit :=
  if exprs.any Expr.holdsAggregate then .error (.unsupportedPosition clause) else .ok ()

mutual

/-- Checks a level, then its from-list, then the sub-queries of its filter. Correlated queries
stay inline and are not entered. -/
def Query.checkPositions : Query → Except PlanError Unit
  | ⟨selectList, fromList, filter, groupBy, having, orderBy, _, _⟩ => do
    Clause.check .selectList (selectList.map SelectItem.expr)
    Clause.check .groupBy groupBy
    Clause.check .having having.toList
    Clause.check .orderBy (orderBy.map OrderItem.expr)
    FromItem.checkPositionsIn fromList
    match filter with
    | some e => e.checkPositions
    | none => .ok ()

def FromItem.checkPositions : FromItem → Except PlanError Unit
  | .subquery query => if query.isCorrelated then .ok () else query.checkPositions
  | .join left right _ on => do
    Clause.check .on on.toList
    left.checkPositions
    right.checkPositions
  | .table _ => .ok ()
  | .placeholder _ => .ok ()

def FromItem.checkPositionsIn : List FromItem → Except PlanError Unit
  | [] => .ok ()
  | item :: rest => do
    item.checkPositions
    FromItem.checkPositionsIn rest

/-- Checks the sub-queries in the slots of a filter. -/
def Expr.checkPositions : Expr → Except PlanError Unit
  | .subquery query => if query.isCorrelated then .ok () else query.checkPositions
  | .inSubquery operand query _ => do
    operand.checkPositions
    if query.isCorrelated then .ok () else query.checkPositions
  | .existsSubquery query _ => if query.isCorrelated then .ok () else query.checkPositions
  | .func _ args _ => Expr.checkPositionsIn args
  | .binary _ left right => do
    left.checkPositions
    right.checkPositions
  | .not operand => operand.checkPositions
  | .isNull operand _ => operand.checkPositions
  | .column _ _ => .ok ()
  | .literal _ => .ok ()
  | .star _ => .ok ()

def Expr.checkPositionsIn : List Expr → Except PlanError Unit
  | [] => .ok ()
  | e :: rest => do
    e.checkPositions
    Expr.checkPositionsIn rest

end

/-- All checks that come before a query is decomposed. Of several unbound names the least is
reported. -/
def Query.validate (q : Query) : Except PlanError Unit := do
  if !q.isAggregate then throw .notAggregate
  q.checkPositions
  match q.freeNames with
  | [] => return ()
  | asName :: _ => throw (.unboundReference asName)

end ApproxQuery
