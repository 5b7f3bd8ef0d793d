import ApproxQuery.AscendingMap
import ApproxQuery.Ascending
import ApproxQuery.Query.Encoding
import ApproxQuery.Query.Decoding
import ApproxQuery.Scramble.Meta

/-! Plan nodes. A node is one query whose result can be stored on its own; its dependents are
the nodes it reads, its parents the nodes that read it. -/
namespace ApproxQuery

inductive NodeKind where
  /-- Reads its dependents without aggregating at its own level. -/
  | projection
  | aggregate
  /-- Runs once for each block prefix of the scramble. -/
  | progressive (scramble : ScrambleMeta)
deriving Inhabited

def NodeKind.label : NodeKind → String
  | projection => "projection"
  | aggregate => "aggregate"
  | progressive _ => "progressive"

/-- A dependent that is read in a sub-query slot. -/
structure SlotRef where
  kind : SubqueryKind
  ref : PlaceholderRef
deriving DecidableEq, Repr, Inhabited

structure Node where
  id : NodeId
  kind : NodeKind
  query : Query
  parents : List NodeId
  dependents : List NodeId
  /-- For each dependent the from-list placeholders that read it. -/
  tables : AscendingMap NodeId (List PlaceholderRef)
  /-- For each dependent the slots that read it. -/
  filters : AscendingMap NodeId (List SlotRef)
  broadcasts : List QueueId
  listens : List QueueId
  /-- Where the result is stored; the root does not use it. -/
  scratch : TableName
deriving Inhabited

namespace Node

/-- A node without edges. -/
def new (id : NodeId) (kind : NodeKind) (query : Query) (scratch : TableName) : Node :=
  ⟨id, kind, query, [], [], .empty, .empty, [], [], scratch⟩

def isRoot (n : Node) : Bool := n.parents.isEmpty

def scramble? (n : Node) : Option ScrambleMeta :=
  match n.kind with
  | .progressive s => some s
  | .projection => none
  | .aggregate => none

def isProgressive (n : Node) : Bool := n.scramble?.isSome

def isAggregate (n : Node) : Bool :=
  match n.kind with
  | .aggregate => true
  | .projection => false
  | .progressive _ => false

/-- The queues it broadcasts on, as a set. -/
def broadcastSet (n : Node) : List QueueId := ascending n.broadcasts

/-- Dependents for which some placeholder is recorded. -/
def recordedDependents (n : Node) : List NodeId :=
  ascending ((n.tables.entries.filter fun entry => !entry.2.isEmpty).map Prod.fst
    ++ (n.filters.entries.filter fun entry => !entry.2.isEmpty).map Prod.fst)

/-- Adds at the end what is not there yet. -/
def addOnce {α : Type} [DecidableEq α] (values : List α) (value : α) : List α :=
  if value ∈ values then values else values ++ [value]

def addParent (n : Node) (parent : NodeId) : Node := { n with parents := addOnce n.parents parent }

def addDependent (n : Node) (dependent : NodeId) : Node :=
  { n with dependents := addOnce n.dependents dependent }

def addListening (n : Node) (queue : QueueId) : Node :=
  { n with listens := addOnce n.listens queue }

def addBroadcast (n : Node) (queue : QueueId) : Node :=
  { n with broadcasts := addOnce n.broadcasts queue }

/-- Puts one parent in place of another; a repetition that arises is dropped. -/
def replaceParent (n : Node) (old new : NodeId) : Node :=
  { n with parents :=
      (n.parents.map fun p => if p = old then new else p).foldl addOnce [] }

/-- Removes the edge to a dependent with all that is recorded for it. -/
def removeDependent (n : Node) (dependent : NodeId) : Node :=
  { n with
    dependents := n.dependents.filter fun d => d ≠ dependent
    tables := n.tables.erase dependent
    filters := n.filters.erase dependent }

end Node

section Encoding

open Data

def NodeKind.encode : NodeKind → Data
  | projection => .str "projection"
  | aggregate => .str "aggregate"
  | progressive s => variant "progressive" (.record [("scramble", s.encode)])

def NodeKind.decode (format : Leniency) (d : Data) : Read NodeKind := do
  match ← d.readVariant with
  | ("projection", content) => readEmpty format .projection content
  | ("aggregate", content) => readEmpty format .aggregate content
  | ("progressive", content) =>
    let fields ← readContent (readFields ["scramble"]) content
    return .progressive (← fields.required "scramble" ScrambleMeta.decode)
  | (name, _) => .error (.unknownVariant name)

def SlotRef.encode (slot : SlotRef) : Data :=
  .record [("kind", .str slot.kind.keyword), ("placeholder", slot.ref.encode)]

def SlotRef.decode (format : Leniency) (d : Data) : Read SlotRef := do
  let fields ← d.readFields ["kind", "placeholder"]
  return ⟨← fields.required "kind" (SubqueryKind.decode format),
    ← fields.required "placeholder" PlaceholderRef.decode⟩

/-- A map from nodes, with the index in decimal as the key. -/
def encodeByNode {α : Type} (encode : α → Data) (m : AscendingMap NodeId (List α)) : Data :=
  .record (m.entries.map fun (id, values) =>
    (Decimal.digitText id.index, .list (values.map encode)))

/-- A node index as a key: decimal digits without superfluous zeros. -/
def readNodeKey (key : String) : Read NodeId :=
  let digits := key.toList
  match CoreSchema.digits? 10 digits with
  | some n =>
    if n < UInt64.size && (digits.length = 1 || digits.head? ≠ some '0') then .ok ⟨n⟩
    else .error .outOfRange
  | none => .error (.unexpected "node")

def decodeByNode {α : Type} (read : Data → Read α) : Data → Read (AscendingMap NodeId (List α))
  | .record fields =>
    fields.foldlM (fun m (key, d) => do
      return m.insert (← readNodeKey key) (← readList read d)) .empty
  | _ => .error (.unexpected "record")

def Node.encode (n : Node) : Data :=
  .record [("id", n.id.encode), ("kind", n.kind.encode), ("query", n.query.encode),
    ("parents", .list (n.parents.map NodeId.encode)),
    ("dependents", .list (n.dependents.map NodeId.encode)),
    ("placeholder_tables", encodeByNode PlaceholderRef.encode n.tables),
    ("placeholder_filters", encodeByNode SlotRef.encode n.filters),
    ("broadcasting_queues", .list (n.broadcasts.map QueueId.encode)),
    ("listening_queues", .list (n.listens.map QueueId.encode)),
    ("scratch_table", n.scratch.encode)]

def Node.decode (format : Leniency) (d : Data) : Read Node := do
  let fields ← d.readFields ["id", "kind", "query", "parents", "dependents", "placeholder_tables",
    "placeholder_filters", "broadcasting_queues", "listening_queues", "scratch_table"]
  return {
    id := ← fields.required "id" NodeId.decode
    kind := ← fields.required "kind" (NodeKind.decode format)
    query := ← fields.required "query" (Query.decode format)
    parents := ← fields.required "parents" (readList NodeId.decode)
    dependents := ← fields.required "dependents" (readList NodeId.decode)
    tables := ← fields.required "placeholder_tables" (decodeByNode PlaceholderRef.decode)
    filters := ← fields.required "placeholder_filters" (decodeByNode (SlotRef.decode format))
    broadcasts := ← fields.required "broadcasting_queues" (readList QueueId.decode)
    listens := ← fields.required "listening_queues" (readList QueueId.decode)
    scratch := ← fields.required "scratch_table" TableName.decode }

end Encoding

end ApproxQuery
