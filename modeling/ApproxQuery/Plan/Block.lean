import ApproxQuery.Estimate.Acceptance
import ApproxQuery.Plan.Order

/-! Aggregate blocks and their conversion to progressive nodes. A block has its root at the
first aggregate node of a path from the plan's root through projections. It owns each descendant
all of whose parents are in the block; the other nodes it reads stay separate. -/
namespace ApproxQuery

structure Block where
  root : NodeId
  /-- The block's other nodes, parents before their dependents. -/
  members : List NodeId
  /-- Nodes outside the block that some node of it reads. -/
  external : List NodeId
deriving DecidableEq, Repr, Inhabited

def Block.contains (b : Block) (id : NodeId) : Bool := b.root = id || b.members.contains id

/-- Why a block is left as it is. -/
inductive NotConverted where
  | noScrambledTable
  | nonDecomposable (call : String)
  | inconsistentEstimate (reason : Unscalable)
  | alreadyProgressive
deriving DecidableEq, Repr

inductive Conversion where
  | converted (node : NodeId) (table : TableName) (blocks : Nat) (absorbed : List NodeId)
  | notConverted (root : NodeId) (reason : NotConverted)
deriving DecidableEq, Repr

def Conversion.isConverted : Conversion → Bool
  | converted _ _ _ _ => true
  | notConverted _ _ => false

namespace Plan

/-- Aggregate nodes first met on the way from the nodes on the stack, each once. -/
def blockRoots (p : Plan) : Nat → List NodeId → List NodeId → Except PlanError (List NodeId)
  | 0, _, _ => .ok []
  | _ + 1, _, [] => .ok []
  | fuel + 1, seen, id :: stack =>
    if seen.contains id then p.blockRoots fuel seen stack
    else do
      let n ← p.getNode id
      match n.kind with
      | .aggregate => return id :: (← p.blockRoots fuel (id :: seen) stack)
      | .projection => p.blockRoots fuel (id :: seen) (n.dependents ++ stack)
      | .progressive _ => p.blockRoots fuel (id :: seen) stack

/-- Adds those nodes of a list, in order, all of whose parents are in the block by then. -/
def gatherMembers (p : Plan) (inBlock : List NodeId) : List NodeId → Except PlanError (List NodeId)
  | [] => .ok []
  | id :: rest => do
    let n ← p.getNode id
    if n.parents.all inBlock.contains then
      return id :: (← p.gatherMembers (id :: inBlock) rest)
    else p.gatherMembers inBlock rest

/-- The nodes that some node of a block reads and that are not in it, in the order met. -/
def externalOf (p : Plan) (inBlock : List NodeId) : Except PlanError (List NodeId) := do
  let read ← inBlock.mapM fun id => return (← p.getNode id).dependents
  return (read.flatten.filter fun d => !inBlock.contains d).foldl Node.addOnce []

/-- The block at a root. -/
def blockAt (p : Plan) (topDown : List NodeId) (root : NodeId) : Except PlanError Block := do
  let below := p.descendants root
  let members ← p.gatherMembers [root] (topDown.filter below.contains)
  return ⟨root, members, ← p.externalOf (ascending (root :: members))⟩

/-- All blocks, in the order in which their roots are met. -/
def blocks (p : Plan) : Except PlanError (List Block) :=
  match p.root with
  | none => .ok []
  | some root => do
    let roots ← p.blockRoots (p.rounds + 1) [] [root]
    let topDown := (← p.topologicalOrder).reverse
    roots.mapM (p.blockAt topDown)

/-- A node's query with the known queries of its dependents put in. -/
def inlineNode (known : AscendingMap NodeId Query) (n : Node) : Except PlanError Query :=
  n.dependents.foldlM (fun q d =>
    match known.find? d with
    | none => .ok q
    | some content =>
      if q.tableSites d ≠ 0 then .ok (q.fillTables d content)
      else if q.markerSites d ≠ 0 then .ok (q.fillMarkers d content)
      else .error (.invalid (.placeholderMissing d n.id))) n.query

/-- The query of a block's root with all members put in, dependents before their parents. -/
def inlineBlock (p : Plan) (b : Block) : Except PlanError Query := do
  let known ← (b.members.reverse ++ [b.root]).foldlM (fun known id => do
    let n ← p.getNode id
    return known.insert id (← inlineNode known n)) AscendingMap.empty
  match known.find? b.root with
  | some q => .ok q
  | none => .error (.unknownNode b.root)

/-- The references of a block's nodes to nodes outside it, with the members' listening queues. -/
structure Outward where
  tables : AscendingMap NodeId (List PlaceholderRef)
  filters : AscendingMap NodeId (List SlotRef)
  queues : List QueueId

/-- Gathers from one node of the block. -/
def Outward.gather (b : Block) (o : Outward) (n : Node) : Outward where
  tables := (n.tables.entries.filter fun entry => !b.contains entry.1).foldl
    (fun m entry => m.append entry.1 entry.2) o.tables
  filters := (n.filters.entries.filter fun entry => !b.contains entry.1).foldl
    (fun m entry => m.append entry.1 entry.2) o.filters
  queues := if n.id = b.root then o.queues else o.queues ++ n.listens

/-- Turns the block's root into a progressive node with the inlined query. Nodes outside the
block that it reads signal the root; the members are removed. -/
def absorb (b : Block) (scramble : ScrambleMeta) (inlined : Query) : PlanM Conversion := do
  let nodes ← (b.root :: b.members).mapM lookNode
  let outward := nodes.foldl (Outward.gather b) ⟨.empty, .empty, []⟩
  let root ← lookNode b.root
  let queue ← match root.listens with
    | q :: _ => pure q
    | [] => if b.external.isEmpty then pure ⟨0⟩ else liftM drawQueue
  modify (·.insertNode { root with
    kind := .progressive scramble
    query := inlined
    dependents := b.external
    tables := outward.tables
    filters := outward.filters
    listens := if b.external.isEmpty then [] else [queue] })
  b.external.forM fun d => do
    let n ← lookNode d
    let n := b.members.foldl (fun n m => n.replaceParent m b.root) n
    let n := { n with broadcasts := n.broadcasts.filter fun q => !outward.queues.contains q }
    modify (·.insertNode (n.addBroadcast queue))
  b.members.forM fun m => modify (·.removeNode m)
  return .converted b.root scramble.name scramble.blockCount b.members

/-- Converts a block if its query reads a scrambled table and has increments over it. -/
def convert (b : Block) : PlanM Conversion := do
  let root ← lookNode b.root
  if root.isProgressive then return .notConverted b.root .alreadyProgressive
  let p ← get
  let inlined ← liftExcept (p.inlineBlock b)
  match inlined.progressTable? p.catalog with
  | none => return .notConverted b.root .noScrambledTable
  | some scramble =>
    match inlined.nonDecomposable? with
    | some call => return .notConverted b.root (.nonDecomposable call)
    | none =>
      match inlined.unscalable? scramble.name with
      | some reason => return .notConverted b.root (.inconsistentEstimate reason)
      | none => absorb b scramble inlined

/-- Converts all blocks, up to the first that fails. -/
def makeProgressive : PlanM (List Conversion) := do
  let blocks ← liftExcept (← get).blocks
  blocks.mapM convert

end Plan

end ApproxQuery
