import ApproxQuery.Result
import ApproxQuery.Run.Cancel
import ApproxQuery.Run.Wiring
import ApproxQuery.Sql.Statement

/-! A run as a machine. Every node has a task: it waits for one token from each dependent, takes
a permit, sends its statements one after the other, gives the permit back and signals its parents.
Tasks take their steps in any order; answers come and the level of cancellation is raised at any
moment. When all tasks have been joined, the scratch tables are dropped. -/
namespace ApproxQuery

/-- An estimate after some of the blocks. -/
structure Update where
  node : NodeId
  done : Nat
  total : Nat
  result : QueryResult

namespace Update

def isFinal (u : Update) : Bool := u.done = u.total

/-- The share of the blocks. -/
def fraction (u : Update) : Float :=
  Decimal.nearestOfInt u.done / Decimal.nearestOfInt (max u.total 1)

end Update

/-- What a task ends with. -/
structure Report where
  /-- The answer, from the task of the root only. -/
  result : Option QueryResult
  /-- How many increments were answered. -/
  updates : Nat

abbrev TaskOutcome := Except RunError Report

/-- What the scheduler has taken down of the tasks that it has joined. -/
structure Account where
  /-- The failure of the run so far. -/
  error : Option RunError := none
  /-- The answer of the root. -/
  answer : Option QueryResult := none
  /-- How many tasks have ended well, and how many increments these have told of. -/
  completed : Nat := 0
  updates : Nat := 0

namespace Account

/-- A failure is taken down if there is none yet, and in place of a cancellation if it is more than that. -/
def yieldsTo (account : Account) (e : RunError) : Bool :=
  match account.error with
  | none => true
  | some earlier => earlier.isCancelled && !e.isCancelled

/-- Takes down how a task has ended. -/
def note (root : Option NodeId) (account : Account) : NodeId × TaskOutcome → Account
  | (id, .ok report) =>
    { account with
      completed := account.completed + 1
      updates := account.updates + report.updates
      answer := if some id = root then report.result else account.answer }
  | (_, .error e) => if account.yieldsTo e then { account with error := some e } else account

/-- The answer of the root, unless some task has failed. -/
def outcome (account : Account) : Except RunError QueryResult :=
  match account.error, account.answer with
  | some e, _ => .error e
  | none, some result => .ok result
  | none, none => .error (.invalid .noResult)

end Account

/-- What a task with a permit does next. -/
inductive Turn where
  | whole
  | increment (scramble : ScrambleMeta) (k : Nat) (last : Option (Query × QueryResult))
  | store (query : Query) (updates : Nat)

/-- What a task has asked of the backend. -/
inductive Awaited where
  | whole
  | increment (scramble : ScrambleMeta) (k : Nat) (query : Query)
  | store (updates : Nat)

/-- Where a task stands. -/
inductive Phase where
  /-- Tokens are missing on these queues; without any it waits for a permit. -/
  | waiting (missing : List (QueueId × Nat))
  | running (next : Turn)
  | asking (awaited : Awaited) (statement : Statement)
  | returned (outcome : TaskOutcome)
  | signalled (outcome : TaskOutcome)
  | joined

/-- The word of a task that it has ended. -/
structure Token where
  producer : NodeId
  completed : Bool
deriving DecidableEq, Repr

/-- What can be observed of a run from outside its tasks. -/
inductive Event where
  /-- A statement goes to the backend, for a task or for the clean-up. -/
  | sent (node : Option NodeId) (statement : Statement)
  | answered (node : Option NodeId) (statement : Statement) (succeeded : Bool)
  | raised (level : CancelLevel)

/-- What stays the same during a run. -/
structure Setting where
  plan : Plan
  root : NodeId
  dialect : Sql.Dialect
  /-- Somebody takes the updates. -/
  reports : Bool
  cleanup : Bool

structure RunState where
  phases : AscendingMap NodeId Phase
  permits : Nat
  level : CancelLevel
  /-- Tokens on their way, by queue. -/
  tokens : AscendingMap QueueId (List Token)
  /-- Scratch tables that were going to be written, in order. -/
  recorded : List TableName
  joined : List (NodeId × TaskOutcome)
  updates : List Update
  log : List Event
  /-- How many of the recorded tables the clean-up has turned to, and how many it dropped. -/
  dropsSent : Nat
  dropped : Nat

/-- One step of a run. -/
inductive Action where
  /-- A waiting task takes a token. -/
  | receive (node : NodeId)
  /-- A waiting task notices that the run is aborted. -/
  | giveUp (node : NodeId)
  /-- A task takes a permit. -/
  | acquire (node : NodeId)
  /-- A task with a permit sends its next statement, or ends. -/
  | proceed (node : NodeId)
  /-- The backend answers a task. -/
  | answer (node : NodeId) (reply : Except BackendError QueryResult)
  /-- A task that has ended signals its parents. -/
  | signal (node : NodeId)
  /-- The scheduler joins a task that has signalled, and aborts the run if the task has failed. -/
  | join (node : NodeId)
  /-- Somebody raises the level of cancellation. -/
  | raise (level : CancelLevel)
  /-- The clean-up drops the next table. -/
  | drop (succeeded : Bool)

namespace RunState

def phase? (st : RunState) (id : NodeId) : Option Phase := st.phases.find? id

def setPhase (st : RunState) (id : NodeId) (phase : Phase) : RunState :=
  { st with phases := st.phases.insert id phase }

def note (st : RunState) (event : Event) : RunState := { st with log := st.log ++ [event] }

/-- A table is recorded before it is written, so that a failed write is cleaned up as well. -/
def record (st : RunState) (table : TableName) : RunState :=
  { st with recorded := st.recorded ++ [table] }

/-- A task with a permit ends. -/
def finish (st : RunState) (id : NodeId) (outcome : TaskOutcome) : RunState :=
  { st.setPhase id (.returned outcome) with permits := st.permits + 1 }

def raise (st : RunState) (level : CancelLevel) : RunState :=
  { st with level := st.level.raise level }.note (.raised level)

/-- Puts a token on each of some queues. -/
def post (st : RunState) (token : Token) (queues : List QueueId) : RunState :=
  { st with tokens := queues.foldl (fun tokens queue => tokens.append queue [token]) st.tokens }

def allJoined (st : RunState) : Bool :=
  st.phases.values.all fun phase => match phase with
    | .joined => true
    | _ => false

end RunState

namespace Setting

def node? (s : Setting) (id : NodeId) : Option Node := s.plan.node? id

/-- The first turn of a node. -/
def firstTurn (n : Node) : Turn :=
  match n.kind with
  | .projection => .whole
  | .aggregate => .whole
  | .progressive scramble => .increment scramble 1 none

/-- Sends a statement. A statement without text ends the task instead. -/
def ask (s : Setting) (st : RunState) (n : Node) (awaited : Awaited) (statement : Statement) :
    RunState :=
  match statement.sql s.dialect with
  | .ok _ => (st.setPhase n.id (.asking awaited statement)).note (.sent (some n.id) statement)
  | .error cause => st.finish n.id (.error (.sql n.id cause))

/-- Ends the increments with the last that was answered; its query is what is stored. -/
def conclude (s : Setting) (st : RunState) (n : Node) (done : Nat) :
    Option (Query × QueryResult) → RunState
  | none => st.finish n.id (.error (.invalid (.noBlocks n.id)))
  | some (query, result) =>
    if n.id = s.root then st.finish n.id (.ok ⟨some result, done⟩)
    else st.setPhase n.id (.running (.store query done))

/-- A task with a permit takes its turn. Cancellation is looked at before a plain node's statement
and before each increment, and not before the result of increments is stored. -/
def take (s : Setting) (st : RunState) (n : Node) : Turn → RunState
  | .whole =>
    if st.level.isAborted then st.finish n.id (.error .cancelled)
    else if n.id = s.root then s.ask st n .whole (.select n.query)
    else s.ask (st.record n.scratch) n .whole (.createTableAs n.scratch n.query)
  | .increment scramble k last =>
    if scramble.blockCount < k then s.conclude st n (k - 1) last
    else if st.level.isAborted then st.finish n.id (.error .cancelled)
    else if 1 < k && st.level.stopsProgressive then s.conclude st n (k - 1) last
    else match n.query.increment scramble k with
      | .ok query => s.ask st n (.increment scramble k query) (.select query)
      | .error e => st.finish n.id (.error (.planning (.invalid (.increment e))))
  | .store query updates =>
    s.ask (st.record n.scratch) n (.store updates) (.createTableAs n.scratch query)

/-- A task goes on with the answer to what it asked. -/
def goOn (s : Setting) (st : RunState) (n : Node) (result : QueryResult) : Awaited → RunState
  | .whole => st.finish n.id (.ok ⟨if n.id = s.root then some result else none, 0⟩)
  | .increment scramble k query =>
    let st := if s.reports then
        { st with updates := st.updates ++ [⟨n.id, k, scramble.blockCount, result⟩] }
      else st
    st.setPhase n.id (.running (.increment scramble (k + 1) (some (query, result))))
  | .store updates => st.finish n.id (.ok ⟨none, updates⟩)

/-- Takes the first token of the first queue that lacks one. A token of a task that failed ends
the task that receives it. -/
def receive (st : RunState) (id : NodeId) (queue : QueueId) (count : Nat)
    (rest : List (QueueId × Nat)) : Option RunState :=
  match (st.tokens.find? queue).getD [] with
  | [] => none
  | token :: later =>
    let st := { st with tokens := st.tokens.insert queue later }
    if token.completed then
      some (st.setPhase id (.waiting (if count ≤ 1 then rest else (queue, count - 1) :: rest)))
    else some (st.setPhase id (.returned (.error .cancelled)))

/-- The table that the clean-up drops next, once all tasks have been joined. -/
def nextDrop? (s : Setting) (st : RunState) : Option TableName :=
  if s.cleanup && st.allJoined then st.recorded[st.dropsSent]? else none

/-- The state after an action, if the action is possible. -/
def step (s : Setting) (st : RunState) : Action → Option RunState
  | .receive id =>
    match st.phase? id with
    | some (.waiting ((queue, count) :: rest)) => receive st id queue count rest
    | _ => none
  | .giveUp id =>
    match st.phase? id with
    | some (.waiting _) =>
      if st.level.isAborted then some (st.setPhase id (.returned (.error .cancelled))) else none
    | _ => none
  | .acquire id =>
    match st.phase? id, s.node? id with
    | some (.waiting []), some n =>
      if st.permits = 0 then none
      else some { st.setPhase id (.running (firstTurn n)) with permits := st.permits - 1 }
    | _, _ => none
  | .proceed id =>
    match st.phase? id, s.node? id with
    | some (.running turn), some n => some (s.take st n turn)
    | _, _ => none
  | .answer id reply =>
    match st.phase? id, s.node? id with
    | some (.asking awaited statement), some n =>
      match reply with
      | .ok result => some (s.goOn (st.note (.answered (some id) statement true)) n result awaited)
      | .error cause =>
        some ((st.note (.answered (some id) statement false)).finish id
          (.error (.node id n.scratch cause)))
    | _, _ => none
  | .signal id =>
    match st.phase? id, s.node? id with
    | some (.returned outcome), some n =>
      some ((st.post ⟨id, outcome.isOk⟩ n.broadcasts).setPhase id (.signalled outcome))
    | _, _ => none
  | .join id =>
    match st.phase? id with
    | some (.signalled outcome) =>
      let st := { st.setPhase id .joined with joined := st.joined ++ [(id, outcome)] }
      some (if outcome.isOk then st else st.raise .abort)
    | _ => none
  | .raise level => some (st.raise level)
  | .drop succeeded =>
    (s.nextDrop? st).map fun table =>
      let statement := .dropTable table true
      let st := (st.note (.sent none statement)).note (.answered none statement succeeded)
      { st with
        dropsSent := st.dropsSent + 1
        dropped := st.dropped + if succeeded then 1 else 0 }

/-- The queues on which a node has to receive tokens, with how many. -/
def missingTokens (p : Plan) (n : Node) : List (QueueId × Nat) :=
  ((p.endpoints n).listeners.filter fun l => l.expected ≠ 0).map fun l => (l.queue, l.expected)

/-- The state in which a run starts. -/
def initial (s : Setting) (permits : Nat) (level : CancelLevel) : RunState where
  phases := s.plan.nodeList.foldl
    (fun phases n => phases.insert n.id (.waiting (missingTokens s.plan n))) .empty
  permits := max permits 1
  level := level
  tokens := .empty
  recorded := []
  joined := []
  updates := []
  log := []
  dropsSent := 0
  dropped := 0

end Setting

namespace RunState

/-- The account of the tasks that have been joined, in the order in which they were. -/
def account (st : RunState) (root : Option NodeId) : Account := st.joined.foldl (Account.note root) {}

/-- What the run comes to once all tasks have been joined. -/
def verdict (st : RunState) (root : NodeId) : Except RunError QueryResult := (st.account (some root)).outcome

/-- The statements sent, in order. -/
def statements (st : RunState) : List Statement :=
  st.log.filterMap fun event => match event with
    | .sent _ statement => some statement
    | _ => none

end RunState

end ApproxQuery
