import ApproxQuery.Digest
import ApproxQuery.Json.Text
import ApproxQuery.Plan.Error
import ApproxQuery.Plan.Node
import ApproxQuery.Scramble.Catalog

/-! The execution plan: its nodes by identifier, and the names it draws for scratch tables
and aliases. -/
namespace ApproxQuery

structure Plan where
  nodes : AscendingMap NodeId Node
  root : Option NodeId
  catalog : Catalog
  scratchSchema : String
  /-- Tells the names of this plan from those of any other. -/
  tag : String
  /-- How many names have been drawn. -/
  identifiers : Nat
  nextNode : Nat
  nextQueue : Nat
  /-- The query the plan was built from. -/
  source : Option Query
deriving Inhabited

/-- Changes to a plan. One that fails keeps what it had done before. -/
abbrev PlanM := ExceptT PlanError (StateM Plan)

namespace Plan

/-- A plan without nodes. -/
def unbuilt (scratchSchema tag : String) (catalog : Catalog) : Plan :=
  ⟨.empty, none, catalog, scratchSchema, tag, 0, 0, 0, none⟩

def node? (p : Plan) (id : NodeId) : Option Node := p.nodes.find? id

/-- A node that has to be there. -/
def getNode (p : Plan) (id : NodeId) : Except PlanError Node :=
  match p.node? id with
  | some n => .ok n
  | none => .error (.unknownNode id)

def nodeList (p : Plan) : List Node := p.nodes.values

def nodeIds (p : Plan) : List NodeId := p.nodes.keys

def size (p : Plan) : Nat := p.nodes.size

def rootNode (p : Plan) : Except PlanError Node :=
  match p.root with
  | some root => p.getNode root
  | none => .error (.invalid .unbuilt)

def insertNode (p : Plan) (n : Node) : Plan := { p with nodes := p.nodes.insert n.id n }

def removeNode (p : Plan) (id : NodeId) : Plan := { p with nodes := p.nodes.erase id }

def modifyNode (p : Plan) (id : NodeId) (change : Node → Node) : Plan :=
  { p with nodes := p.nodes.modify id change }

/-- An answer that does not change the plan. -/
def liftExcept {α : Type} (answer : Except PlanError α) : PlanM α := fun p => (answer, p)

/-- A node that has to be there, of the plan at hand. -/
def lookNode (id : NodeId) : PlanM Node := fun p => (p.getNode id, p)

/-- The tag with a number that was not drawn before. -/
def drawIdentifier : StateM Plan String := fun p =>
  (p.tag ++ "_" ++ Decimal.digitText p.identifiers, { p with identifiers := p.identifiers + 1 })

def drawAlias : StateM Plan String := do return "aqpalias_" ++ (← drawIdentifier)

def drawTable : StateM Plan String := do return "aqptemptable_" ++ (← drawIdentifier)

def drawNode : StateM Plan NodeId := fun p => (⟨p.nextNode⟩, { p with nextNode := p.nextNode + 1 })

def drawQueue : StateM Plan QueueId := fun p =>
  (⟨p.nextQueue⟩, { p with nextQueue := p.nextQueue + 1 })

/-- Scratch tables of all nodes but the root. -/
def scratchTables (p : Plan) : List TableName :=
  (p.nodeList.filter fun n => some n.id ≠ p.root).map Node.scratch

def progressiveNodes (p : Plan) : List NodeId :=
  (p.nodeList.filter Node.isProgressive).map Node.id

/-- More than there are nodes and edges: enough rounds for any walk over the plan. -/
def rounds (p : Plan) : Nat :=
  p.size + (p.nodeList.flatMap fun n => n.parents ++ n.dependents).length + 2

def encode (p : Plan) : Data :=
  .record [("root", Data.ofOption NodeId.encode p.root),
    ("nodes", .list (p.nodeList.map Node.encode))]

/-- The digest of the root and the nodes in canonical text. -/
def fingerprint (p : Plan) : Digest := .ofText (Json.text p.encode)

end Plan

/-- The digest of a query's canonical text. -/
def Query.digest (q : Query) : Digest := .ofText (Json.text q.encode)

end ApproxQuery
