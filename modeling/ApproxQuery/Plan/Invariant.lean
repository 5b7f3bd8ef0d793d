import ApproxQuery.Plan.Order

/-! The well-formedness of a plan: edges recorded at both ends, no cycle, every node reached
from the root, and placeholders for exactly the dependents. -/
namespace ApproxQuery

namespace Plan

/-- Fails with the defect unless the condition holds. -/
def require (condition : Bool) (defect : Defect) : Except PlanError Unit :=
  if condition then .ok () else .error (.invalid defect)

/-- A dependent is there and names the node as a parent. -/
def checkDependent (p : Plan) (n : Node) (d : NodeId) : Except PlanError Unit := do
  let dependent ← p.getNode d
  require (dependent.parents.contains n.id) (.missingParentEdge n.id d)

/-- A parent is there and names the node as a dependent. -/
def checkParent (p : Plan) (n : Node) (parentId : NodeId) : Except PlanError Unit := do
  let parent ← p.getNode parentId
  require (parent.dependents.contains n.id) (.missingDependentEdge n.id parentId)

/-- Checks one node; the scratch tables of the nodes before it are given. -/
def checkNode (p : Plan) (root : NodeId) (used : List TableName) (n : Node) :
    Except PlanError (List TableName) := do
  require (n.id = root || !n.parents.isEmpty) (.noParent n.id)
  n.dependents.forM (p.checkDependent n)
  n.parents.forM (p.checkParent n)
  let dependents := ascending n.dependents
  let inQuery := ascending (n.query.placeholders.map PlaceholderRef.node)
  require (inQuery = dependents) (.placeholders n.id inQuery dependents)
  require (n.recordedDependents = dependents) (.placeholderMaps n.id)
  require (!used.contains n.scratch) (.scratchReused n.scratch)
  return n.scratch :: used

/-- The plan is unbuilt and empty, or well formed. -/
def check (p : Plan) : Except PlanError Unit :=
  match p.root with
  | none => require p.nodes.isEmpty .noRoot
  | some root => do
    let rootNode ← p.getNode root
    require rootNode.parents.isEmpty (.rootHasParents root)
    discard (p.nodeList.foldlM (p.checkNode root) [])
    discard p.topologicalOrder
    let reached := (p.descendants root).length
    require (reached + 1 = p.size) (.unreachable (p.size - reached - 1) p.size)

end Plan

end ApproxQuery
