import ApproxQuery.Run.Machine
import ApproxQuery.Run.Manifest
import ApproxQuery.Plan.Invariant

/-! Runs a plan against a backend, one node after the other. The order is topological, so every
node finds the tokens of its dependents; it is one of the orders that the machine allows. -/
namespace ApproxQuery

/-- What a backend does with one statement. -/
structure Reply where
  answer : Except BackendError QueryResult
  /-- The level to which cancellation is raised while the statement runs. -/
  raised : CancelLevel

structure Backend where
  dialect : Sql.Dialect
  reply : String → Reply

/-- A text that is always there for a statement that was sent. -/
def Backend.text (b : Backend) (statement : Statement) : String :=
  match statement.sql b.dialect with
  | .ok text => text
  | .error e => e.message

/-- The highest level raised by some statements. -/
def Backend.raisedBy (b : Backend) (texts : List String) : CancelLevel :=
  texts.foldl (fun level text => level.raise (b.reply text).raised) .none

/-- The backend without its hold on cancellation. -/
def Backend.detached (b : Backend) : Backend :=
  { b with reply := fun text => { b.reply text with raised := .none } }

namespace Setting

/-- Cancellation is raised before the statement during which it happens is answered. -/
def raiseBefore (reply : Reply) (actions : List Action) : List Action :=
  if reply.raised = .none then actions else .raise reply.raised :: actions

/-- What happens next to the task of a node. -/
def nextActions (b : Backend) (st : RunState) (id : NodeId) : List Action :=
  match st.phase? id with
  | none => []
  | some (.waiting missing) =>
    if st.level.isAborted then [.giveUp id]
    else if missing.isEmpty then [.acquire id]
    else [.receive id]
  | some (.running _) => [.proceed id]
  | some (.asking _ statement) =>
    let reply := b.reply (b.text statement)
    raiseBefore reply [.answer id reply.answer]
  | some (.returned _) => [.signal id]
  | some (.signalled _) => [.join id]
  | some .joined => []

/-- Takes the actions that are possible. -/
def perform (s : Setting) (st : RunState) (actions : List Action) : RunState :=
  actions.foldl (fun st action => (s.step st action).getD st) st

/-- Brings the task of a node to its end. -/
def runNode (s : Setting) (b : Backend) (id : NodeId) : Nat → RunState → RunState
  | 0, st => st
  | fuel + 1, st =>
    match nextActions b st id with
    | [] => st
    | actions => runNode s b id fuel (s.perform st actions)

/-- Enough rounds for a node: its tokens, its increments, and what comes once. -/
def nodeRounds (p : Plan) (n : Node) : Nat :=
  (missingTokens p n).foldl (fun count missing => count + missing.2) 0
    + 2 * ((n.scramble?.map ScrambleMeta.blockCount).getD 0) + 10

def runNodes (s : Setting) (b : Backend) (order : List NodeId) (st : RunState) : RunState :=
  order.foldl (fun st id =>
    match s.node? id with
    | some n => s.runNode b id (nodeRounds s.plan n) st
    | none => st) st

/-- Drops the recorded tables. A failure to drop one does not keep the others. -/
def cleanUp (s : Setting) (b : Backend) (st : RunState) : RunState :=
  st.recorded.foldl (fun st table =>
    let reply := b.reply (b.text (.dropTable table true))
    s.perform st (raiseBefore reply [.drop reply.answer.isOk])) st

end Setting

/-- The answer of a run with its manifest. -/
structure RunAnswer where
  result : QueryResult
  manifest : Manifest

/-- All that a run leaves behind. -/
structure RunRecord where
  outcome : Except RunError RunAnswer
  /-- The texts sent to the backend. -/
  statements : List String
  updates : List Update
  /-- The level of cancellation at the end. -/
  level : CancelLevel

structure Engine where
  config : Config
  backend : Backend

namespace Engine

/-- Prepares a plan as configured. -/
def prepare (e : Engine) (tag : String) (catalog : Catalog) (q : Query) : Except RunError Plan := do
  let prepared ← (Plan.prepare e.config e.config.scratchSchema tag catalog q).mapError .ofPrepare
  return prepared.plan

/-- All that is looked at before the first task starts: the root, and an order of the nodes. -/
def opening (e : Engine) (p : Plan) : Except RunError (NodeId × List NodeId) := do
  e.config.validate.mapError .config
  p.check.mapError .planning
  match p.root with
  | none => throw (.invalid .unbuilt)
  | some root => do
    let order ← p.topologicalOrder.mapError .planning
    discard p.wiring
    return (root, order)

/-- The manifest of a finished run. -/
def manifestOf (p : Plan) (st : RunState) : Manifest :=
  let planHash := p.fingerprint
  let queryHash := (p.source.map Query.digest).getD planHash
  let account := st.account p.root
  { Manifest.start queryHash planHash p.tag 0 with
    nodesScheduled := p.size
    progressiveNodes := p.progressiveNodes.length
    nodesCompleted := account.completed
    progressUpdates := account.updates
    scratchTablesDropped := st.dropped }

/-- Runs a plan to its end and cleans up. -/
def run (e : Engine) (p : Plan) (level : CancelLevel) (reports : Bool) : RunRecord :=
  match e.opening p with
  | .error cause => ⟨.error cause, [], [], level⟩
  | .ok (root, order) =>
    let s : Setting := ⟨p, root, e.backend.dialect, reports, e.config.cleanupScratch⟩
    let st := s.runNodes e.backend order (s.initial e.config.maxParallelNodes level)
    let st := if e.config.cleanupScratch then s.cleanUp e.backend st else st
    { outcome := do return ⟨← st.verdict root, manifestOf p st⟩
      statements := st.statements.map e.backend.text
      updates := st.updates
      level := st.level }

/-- Prepares and runs a query. Nobody can cancel the run, and nobody sees its updates. What the
backend raises is not lost: it is the level at the end. -/
def runQuery (e : Engine) (tag : String) (catalog : Catalog) (q : Query) : RunRecord :=
  match e.prepare tag catalog q with
  | .error cause => ⟨.error cause, [], [], .none⟩
  | .ok p =>
    let record := { e with backend := e.backend.detached }.run p .none false
    { record with level := e.backend.raisedBy record.statements }

end Engine

end ApproxQuery
