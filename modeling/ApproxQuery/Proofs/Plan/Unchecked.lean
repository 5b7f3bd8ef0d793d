import ApproxQuery.Plan.Build

/-! Decomposition with no look-up that could fail. It is what building comes to. -/
namespace ApproxQuery

namespace Plan

/-- Inserts the node. All its dependents signal it on one new queue. -/
def closeNode (start : OpenNode) (q : Query) (links : List Link) : StateM Plan Unit := do
  let n := Node.new start.id start.kind q start.scratch
  match links with
  | [] => modify (·.insertNode n)
  | links => do
    let queue ← drawQueue
    let n := links.foldl addLink (n.addListening queue)
    modify fun p => links.foldl (fun p link => p.modifyNode link.node fun child =>
      (child.addParent start.id).addBroadcast queue) p
    modify (·.insertNode n)

/-- Decides about a derived table, given the search of its level. -/
def takeTable (q : Query) (extract : StateM Plan (Query × List Link)) :
    StateM Plan (FromItem × List Link) := do
  if q.isCorrelated then return (.subquery q, [])
  else if !q.isAggregateLevel then
    let (q, links) ← extract
    return (.subquery q, links)
  else
    let asName ← match q.asName with
      | some asName => pure asName
      | none => drawAlias
    let start ← openNode q
    let (level, links) ← extract
    closeNode start { level with asName := none } links
    let ref := ⟨start.id, start.scratch, asName⟩
    return (.placeholder ref, [.table ref])

/-- Decides likewise about the query in a slot. -/
def takeSlot (kind : SubqueryKind) (q : Query) (extract : StateM Plan (Query × List Link)) :
    StateM Plan (Query × List Link) := do
  if q.isCorrelated then return (q, [])
  else if !q.isAggregateLevel then extract
  else
    let start ← openNode q
    let (level, links) ← extract
    closeNode start { level with asName := none } links
    let asName ← drawAlias
    let ref := ⟨start.id, start.scratch, asName⟩
    return (Query.selectAll (.placeholder ref), [.slot ⟨kind, ref⟩])

def unchecked : Taker (StateM Plan) := ⟨takeTable, takeSlot⟩

end Plan

open Plan

def Query.extract (q : Query) : StateM Plan (Query × List Link) := q.extractBy unchecked

def FromItem.extract (item : FromItem) : StateM Plan (FromItem × List Link) := item.extractBy unchecked

def FromItem.extractIn (items : List FromItem) : StateM Plan (List FromItem × List Link) :=
  FromItem.extractInBy unchecked items

def Expr.extract (e : Expr) : StateM Plan (Expr × List Link) := e.extractBy unchecked

def Expr.extractIn (es : List Expr) : StateM Plan (List Expr × List Link) :=
  Expr.extractInBy unchecked es

/-- Makes the root node of a query. -/
def Plan.decompose (q : Query) : StateM Plan NodeId := do
  let start ← openNode q
  let (level, links) ← q.extract
  closeNode start level links
  return start.id

end ApproxQuery
