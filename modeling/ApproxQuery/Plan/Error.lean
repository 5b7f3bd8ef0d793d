import ApproxQuery.Sql.Render
import ApproxQuery.Estimate.Increment

/-! Why planning fails. Each cause is a constructor; its wording is in one place. -/
namespace ApproxQuery

/-- The clauses in which an aggregate sub-query cannot be planned. -/
inductive Clause where
  | selectList | groupBy | having | orderBy | on
deriving DecidableEq, Repr

def Clause.words : Clause → String
  | selectList => "select list"
  | groupBy => "GROUP BY"
  | having => "HAVING"
  | orderBy => "ORDER BY"
  | on => "ON"

/-- What a plan that is not well formed breaks. -/
inductive Defect where
  | unbuilt
  | noRoot
  | rootHasParents (root : NodeId)
  | noParent (node : NodeId)
  | missingParentEdge (node dependent : NodeId)
  | missingDependentEdge (node parent : NodeId)
  | placeholders (node : NodeId) (inQuery dependents : List NodeId)
  | placeholderMaps (node : NodeId)
  | scratchReused (table : TableName)
  | cycle (count : Nat)
  | unreachable (count size : Nat)
  | noCommonQueue (node parent : NodeId)
  | placeholderMissing (dependent node : NodeId)
  | increment (error : IncrementError)
deriving DecidableEq, Repr

/-- A set of nodes as listed in messages. -/
def nodeSetText (ids : List NodeId) : String :=
  "\x7b" ++ ", ".intercalate (ids.map NodeId.label) ++ "\x7d"

def IncrementError.text : IncrementError → String
  | outOfRange k blocks =>
    "increment " ++ Decimal.digitText k ++ " out of range 1..=" ++ Decimal.digitText blocks
  | noCoverage k table => "no coverage for " ++ Decimal.digitText k ++ " blocks of " ++ table.dotted

def Defect.text : Defect → String
  | unbuilt => "plan has not been built"
  | noRoot => "nodes without a root"
  | rootHasParents root => "root " ++ root.label ++ " has parents"
  | noParent node => node.label ++ " has no parent"
  | missingParentEdge node dependent =>
    node.label ++ " depends on " ++ dependent.label ++ " but is not among its parents"
  | missingDependentEdge node parent =>
    node.label ++ " lists parent " ++ parent.label ++ " which does not depend on it"
  | placeholders node inQuery dependents =>
    node.label ++ ": placeholders reference " ++ nodeSetText inQuery ++ ", dependents are "
      ++ nodeSetText dependents
  | placeholderMaps node => node.label ++ ": placeholder maps out of sync with dependents"
  | scratchReused table => "scratch table " ++ table.dotted ++ " used twice"
  | cycle count => "cycle among " ++ Decimal.digitText count ++ " nodes"
  | unreachable count size =>
    Decimal.digitText count ++ " of " ++ Decimal.digitText size ++ " nodes unreachable from root"
  | noCommonQueue node parent =>
    node.label ++ " broadcasts on none of the queues " ++ parent.label ++ " listens on"
  | placeholderMissing dependent node =>
    "placeholder for " ++ dependent.label ++ " missing in " ++ node.label
  | increment error => error.text

inductive PlanError where
  | notAggregate
  | unsupportedPosition (clause : Clause)
  | unboundReference (asName : String)
  | placeholderNotFound (node parent : NodeId)
  | unknownNode (id : NodeId)
  | alreadyBuilt (root : NodeId)
  | invalid (defect : Defect)
  | sql (error : SqlError)
deriving DecidableEq, Repr

def PlanError.message : PlanError → String
  | notAggregate => "query has no aggregate function and no GROUP BY at any level"
  | unsupportedPosition clause => "aggregate sub-query in " ++ clause.words ++ " is not supported"
  | unboundReference asName =>
    "reference to '" ++ asName ++ "' is not bound by any enclosing scope"
  | placeholderNotFound node parent =>
    "placeholder for " ++ node.label ++ " not found in the query of " ++ parent.label
  | unknownNode id => "unknown node " ++ id.label
  | alreadyBuilt root => "plan already built (root " ++ root.label ++ ")"
  | invalid defect => "invalid plan: " ++ defect.text
  | sql error => error.message

end ApproxQuery
