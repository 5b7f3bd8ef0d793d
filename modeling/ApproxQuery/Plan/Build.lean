import ApproxQuery.Plan.Basic
import ApproxQuery.Plan.Validation

/-! Decomposition of a query into nodes. Every aggregate level found in a from-list or a filter
becomes a node; a placeholder takes its place. Levels that do not aggregate are searched but
stay, and so do correlated queries. -/
namespace ApproxQuery

/-- How a level reads a node that was taken out of it. -/
inductive Link where
  | table (ref : PlaceholderRef)
  | slot (read : SlotRef)

def Link.node : Link → NodeId
  | table ref => ref.node
  | slot read => read.ref.node

/-- What is done about a derived table, and about the query in a slot, given the search of its
level. -/
structure Taker (m : Type → Type) where
  table : Query → m (Query × List Link) → m (FromItem × List Link)
  slot : SubqueryKind → Query → m (Query × List Link) → m (Query × List Link)

section Extraction

variable {m : Type → Type} [Monad m] (taker : Taker m)

mutual

/-- Takes the nodes out of a level: from its from-list, then from its filter. -/
def Query.extractBy : Query → m (Query × List Link)
  | ⟨selectList, fromList, filter, groupBy, having, orderBy, limit, asName⟩ => do
    let (fromList, tables) ← FromItem.extractInBy fromList
    let (filter, slots) ← match filter with
      | some e => do
        let (e, slots) ← e.extractBy
        pure (some e, slots)
      | none => pure (none, [])
    return (⟨selectList, fromList, filter, groupBy, having, orderBy, limit, asName⟩,
      tables ++ slots)

def FromItem.extractBy : FromItem → m (FromItem × List Link)
  | .subquery query => taker.table query query.extractBy
  | .join left right kind on => do
    let (left, leftLinks) ← left.extractBy
    let (right, rightLinks) ← right.extractBy
    return (.join left right kind on, leftLinks ++ rightLinks)
  | .table t => return (.table t, [])
  | .placeholder ref => return (.placeholder ref, [])

def FromItem.extractInBy : List FromItem → m (List FromItem × List Link)
  | [] => return ([], [])
  | item :: rest => do
    let (item, links) ← item.extractBy
    let (rest, more) ← FromItem.extractInBy rest
    return (item :: rest, links ++ more)

/-- Takes the nodes out of the slots of a filter; a marker is left in each. -/
def Expr.extractBy : Expr → m (Expr × List Link)
  | .subquery query => do
    let (query, links) ← taker.slot .scalar query query.extractBy
    return (.subquery query, links)
  | .inSubquery operand query negated => do
    let (operand, operandLinks) ← operand.extractBy
    let (query, links) ← taker.slot .membership query query.extractBy
    return (.inSubquery operand query negated, operandLinks ++ links)
  | .existsSubquery query negated => do
    let (query, links) ← taker.slot .existence query query.extractBy
    return (.existsSubquery query negated, links)
  | .func name args distinct => do
    let (args, links) ← Expr.extractInBy args
    return (.func name args distinct, links)
  | .binary op left right => do
    let (left, leftLinks) ← left.extractBy
    let (right, rightLinks) ← right.extractBy
    return (.binary op left right, leftLinks ++ rightLinks)
  | .not operand => do
    let (operand, links) ← operand.extractBy
    return (.not operand, links)
  | .isNull operand negated => do
    let (operand, links) ← operand.extractBy
    return (.isNull operand negated, links)
  | .column table name => return (.column table name, [])
  | .literal value => return (.literal value, [])
  | .star table => return (.star table, [])

def Expr.extractInBy : List Expr → m (List Expr × List Link)
  | [] => return ([], [])
  | e :: rest => do
    let (e, links) ← e.extractBy
    let (rest, more) ← Expr.extractInBy rest
    return (e :: rest, links ++ more)

end

end Extraction

/-- A node whose query is still being searched. -/
structure OpenNode where
  id : NodeId
  kind : NodeKind
  scratch : TableName

namespace Plan

/-- Draws identifier and scratch table of a node for the query. -/
def openNode (q : Query) : StateM Plan OpenNode := do
  let id ← drawNode
  let table ← drawTable
  let p ← get
  return ⟨id, if q.isAggregateLevel then .aggregate else .projection, ⟨p.scratchSchema, table⟩⟩

/-- Records one link at the consumer. -/
def addLink (n : Node) (link : Link) : Node :=
  let n := n.addDependent link.node
  match link with
  | .table ref => { n with tables := n.tables.append ref.node [ref] }
  | .slot read => { n with filters := n.filters.append read.ref.node [read] }

/-- Changes a node that has to be there. -/
def changeNode (id : NodeId) (change : Node → Node) : PlanM Unit := do
  discard (lookNode id)
  modify (·.modifyNode id change)

/-- Makes a node of a query, given the search of its level. All its dependents signal it on one new
queue. -/
def createNode (q : Query) (extract : PlanM (Query × List Link)) : PlanM NodeId := do
  let start ← openNode q
  let (level, links) ← extract
  let n := Node.new start.id start.kind level start.scratch
  match links with
  | [] => modify (·.insertNode n)
  | links => do
    let queue ← drawQueue
    links.forM fun link => changeNode link.node fun child =>
      (child.addParent start.id).addBroadcast queue
    modify (·.insertNode (links.foldl addLink (n.addListening queue)))
  return start.id

/-- The placeholder that reads a node. -/
def placeholderFor (child : NodeId) (asName : String) : PlanM PlaceholderRef := do
  let n ← lookNode child
  return ⟨child, n.scratch, asName⟩

/-- The search of a level that becomes a node of its own, without the alias. -/
def unnamed (extract : PlanM (Query × List Link)) : PlanM (Query × List Link) := do
  let (level, links) ← extract
  return ({ level with asName := none }, links)

/-- Decides about a derived table: a correlated one stays, one that does not aggregate is searched,
and any other becomes a node. Its alias, or a drawn one, is what the placeholder is read under. -/
def extractTable (q : Query) (extract : PlanM (Query × List Link)) : PlanM (FromItem × List Link) := do
  if q.isCorrelated then return (.subquery q, [])
  else if !q.isAggregateLevel then
    let (q, links) ← extract
    return (.subquery q, links)
  else
    let asName ← match q.asName with
      | some asName => pure asName
      | none => (drawAlias : PlanM String)
    let child ← createNode q (unnamed extract)
    let ref ← placeholderFor child asName
    return (.placeholder ref, [.table ref])

/-- Decides likewise about the query in a slot. The alias is drawn after the node is made. -/
def extractSlot (kind : SubqueryKind) (q : Query) (extract : PlanM (Query × List Link)) :
    PlanM (Query × List Link) := do
  if q.isCorrelated then return (q, [])
  else if !q.isAggregateLevel then extract
  else
    let child ← createNode q (unnamed extract)
    let asName ← drawAlias
    let ref ← placeholderFor child asName
    return (Query.selectAll (.placeholder ref), [.slot ⟨kind, ref⟩])

def extractor : Taker PlanM := ⟨extractTable, extractSlot⟩

/-- Builds the plan of a query. A plan is built once, and only for a query that can be planned. -/
def buildQuery (q : Query) : PlanM NodeId := do
  if let some root := (← get).root then throw (.alreadyBuilt root)
  liftExcept q.validate
  let root ← createNode q (q.extractBy extractor)
  modify ({ · with root := some root, source := some q })
  return root

/-- The root and the plan, where it could be built. -/
def build (p : Plan) (q : Query) : Except PlanError (NodeId × Plan) :=
  match buildQuery q p with
  | (.ok root, p) => .ok (root, p)
  | (.error e, _) => .error e

/-- The plan of a query. -/
def ofQuery (scratchSchema tag : String) (catalog : Catalog) (q : Query) :
    Except PlanError Plan := do
  let (_, p) ← (unbuilt scratchSchema tag catalog).build q
  return p

end Plan

end ApproxQuery
