import ApproxQuery.Plan.Order

/-! Compression merges a node into its only parent where that does not change when the parent
may start. A work-list runs until no node can be merged. -/
namespace ApproxQuery

/-- What a compression did. -/
structure Compression where
  /-- Merged nodes with the parents they went into, in order. -/
  merged : List (NodeId × NodeId)
  /-- Why nodes that could be merged were left. -/
  violations : List PlanError
  /-- How many nodes were taken from the work-list. -/
  steps : Nat
deriving Repr

/-- A work-list: nodes wait in order, none twice at a time. -/
structure Compressing where
  plan : Plan
  waiting : List NodeId
  failed : List NodeId
  report : Compression

namespace Plan

/-- All neighbouring values are equal. -/
def allEqual {α : Type} [DecidableEq α] : List α → Bool
  | a :: b :: rest => a = b && allEqual (b :: rest)
  | _ => true

/-- The parent the node may be merged into: its only one, when neither is progressive and all
dependents of the parent broadcast alike. -/
def mergeTarget? (p : Plan) (id : NodeId) : Option NodeId := do
  let n ← p.node? id
  if p.root = some id || n.isProgressive then none
  else match n.parents with
    | [parentId] =>
      let parent ← p.node? parentId
      if parent.isProgressive then none
      else
        let sets := (parent.dependents.filterMap p.node?).map Node.broadcastSet
        if allEqual sets then some parentId else none
    | _ => none

/-- What a consumer records about a merged node's dependents, once for each placeholder that
the merged query replaced. -/
def inheritRefs (child : Node) (parent : Node) : Nat → Node
  | 0 => parent
  | copies + 1 =>
    let parent := inheritRefs child parent copies
    { parent with
      tables := child.tables.entries.foldl (fun m (d, refs) => m.append d refs) parent.tables
      filters := child.filters.entries.foldl (fun m (d, refs) => m.append d refs) parent.filters }

/-- A dependent of a merged node now has the parent, and signals it on the merged node's queue. -/
def handOver (child : Node) (parentId : NodeId) (slot : Option QueueId) (d : Node) : Node :=
  let d := d.replaceParent child.id parentId
  let d := { d with broadcasts := d.broadcasts.filter fun q => !child.listens.contains q }
  match slot with
  | some q => d.addBroadcast q
  | none => d

/-- The parent's query with the child's query put in its place, and how often: at from-list
placeholders, or else at markers. -/
def inlineInto (childId : NodeId) (child parent : Query) : Query × Nat :=
  if parent.tableSites childId = 0 then
    (parent.fillMarkers childId child, parent.markerSites childId)
  else (parent.fillTables childId child, parent.tableSites childId)

/-- Merges a node into a parent and gives its dependents, which are the answer, to the parent.
A plan whose edges stay within it is left as it was when this fails. -/
def merge (childId parentId : NodeId) : PlanM (List NodeId) := do
  let child ← lookNode childId
  let parent ← lookNode parentId
  let (query, replaced) := inlineInto childId child.query parent.query
  if replaced = 0 then throw (.placeholderNotFound childId parentId)
  let slot := child.broadcasts.find? parent.listens.contains
  if slot.isNone && !child.dependents.isEmpty then
    throw (.invalid (.noCommonQueue childId parentId))
  let parent := { parent with query }.removeDependent childId
  let parent := child.dependents.foldl Node.addDependent parent
  modify (·.insertNode (inheritRefs child parent replaced))
  child.dependents.forM fun d => do
    let n ← lookNode d
    modify (·.insertNode (handOver child parentId slot n))
  let parent ← lookNode parentId
  let p ← get
  let live := (parent.dependents.filterMap p.node?).flatMap Node.broadcasts
  modify (·.insertNode { parent with listens := parent.listens.filter live.contains })
  modify (·.removeNode childId)
  return child.dependents

end Plan

namespace Compressing

/-- Appends a node unless it is waiting already. -/
def enqueue (c : Compressing) (id : NodeId) : Compressing :=
  { c with waiting := Node.addOnce c.waiting id }

/-- Takes the first waiting node: merges it if it can be merged, and otherwise goes on with its
parents. After a merge the parent and all its dependents are looked at again. -/
def step (c : Compressing) (id : NodeId) (waiting : List NodeId) : Compressing :=
  let c := { c with waiting, report := { c.report with steps := c.report.steps + 1 } }
  match c.plan.node? id with
  | none => c
  | some n =>
    match if c.failed.contains id then none else c.plan.mergeTarget? id with
    | none => n.parents.foldl enqueue c
    | some parentId =>
      match Plan.merge id parentId c.plan with
      | (.ok moved, plan) =>
        let report := { c.report with merged := c.report.merged ++ [(id, parentId)] }
        let c := { c with plan, report }
        let siblings := ((plan.node? parentId).map Node.dependents).getD []
        (parentId :: siblings ++ moved).foldl enqueue c
      | (.error e, plan) =>
        enqueue { c with
          plan
          failed := id :: c.failed
          report := { c.report with violations := c.report.violations ++ [e] } } parentId

/-- Steps until nothing waits. -/
def run : Nat → Compressing → Compressing
  | 0, c => c
  | fuel + 1, c =>
    match c.waiting with
    | [] => c
    | id :: waiting => run fuel (c.step id waiting)

end Compressing

namespace Plan

/-- Nodes without dependents, in breadth-first order from the nodes in front. -/
def leavesFrom (p : Plan) : Nat → List NodeId → List NodeId → List NodeId
  | 0, _, _ => []
  | _ + 1, _, [] => []
  | fuel + 1, seen, id :: front =>
    match p.node? id with
    | none => p.leavesFrom fuel seen front
    | some n =>
      let seen' := n.dependents.foldl Node.addOnce seen
      let fresh := seen'.drop seen.length
      (if n.dependents.isEmpty then [id] else []) ++ p.leavesFrom fuel seen' (front ++ fresh)

/-- Merges until a fixed point; an unbuilt plan stays as it is. -/
def compress (p : Plan) : Plan × Compression :=
  match p.root with
  | none => (p, ⟨[], [], 0⟩)
  | some root =>
    let start : Compressing := ⟨p, p.leavesFrom p.rounds [root] [root], [], ⟨[], [], 0⟩⟩
    let done := start.run (p.rounds * p.rounds * p.rounds)
    (done.plan, done.report)

end Plan

end ApproxQuery
