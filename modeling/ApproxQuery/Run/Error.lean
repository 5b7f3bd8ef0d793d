import ApproxQuery.Plan.Prepare

/-! Why a run fails. -/
namespace ApproxQuery

/-- Why a backend did not execute a statement. -/
inductive BackendError where
  | rejected (reason : String)
  | unavailable (reason : String)
deriving DecidableEq, Repr

def BackendError.message : BackendError → String
  | rejected reason => "backend rejected statement: " ++ reason
  | unavailable reason => "connection unavailable: " ++ reason

/-- What keeps a plan from being run. -/
inductive RunDefect where
  | unbuilt
  | sharedQueue (queue : QueueId)
  | noBlocks (node : NodeId)
  | noResult
deriving DecidableEq, Repr

def RunDefect.text : RunDefect → String
  | unbuilt => "plan has not been built"
  | sharedQueue queue => "queue " ++ Decimal.digitText queue.index ++ " has more than one listener"
  | noBlocks node => node.label ++ " has no blocks"
  | noResult => "root finished without a result"

inductive RunError where
  | node (id : NodeId) (scratch : TableName) (cause : BackendError)
  | sql (id : NodeId) (cause : SqlError)
  | cancelled
  | planning (cause : PlanError)
  | invalid (defect : RunDefect)
  | config (cause : ConfigError)
deriving DecidableEq, Repr

namespace RunError

def isCancelled : RunError → Bool
  | cancelled => true
  | _ => false

def message : RunError → String
  | node id scratch cause =>
    id.label ++ " failed (scratch table " ++ scratch.dotted ++ "): " ++ cause.message
  | sql id cause => "cannot render SQL for " ++ id.label ++ ": " ++ cause.message
  | cancelled => "plan cancelled"
  | planning cause => "planning: " ++ cause.message
  | invalid defect => "invalid plan: " ++ defect.text
  | config cause => cause.message

def ofPrepare : PrepareError → RunError
  | .config cause => config cause
  | .plan cause => planning cause

end RunError

end ApproxQuery
