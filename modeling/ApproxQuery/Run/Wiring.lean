import ApproxQuery.Run.Error

/-! The queues between node tasks. A listener waits for one token from every node that
broadcasts on its queue, and no queue has two listeners. -/
namespace ApproxQuery

structure Listener where
  queue : QueueId
  /-- How many tokens must come. -/
  expected : Nat
deriving DecidableEq, Repr

/-- The ends of queues that a node holds. -/
structure Endpoints where
  listeners : List Listener
  broadcasters : List QueueId
deriving DecidableEq, Repr, Inhabited

namespace Plan

/-- Broadcasts on a queue, counted over all nodes. -/
def broadcastCount (p : Plan) (queue : QueueId) : Nat :=
  (p.nodeList.flatMap Node.broadcasts).count queue

/-- The first queue that is listened to twice. -/
def sharedQueue? : List QueueId → List QueueId → Option QueueId
  | _, [] => none
  | taken, queue :: rest =>
    if taken.contains queue then some queue else sharedQueue? (queue :: taken) rest

def endpoints (p : Plan) (n : Node) : Endpoints :=
  ⟨n.listens.map fun queue => ⟨queue, p.broadcastCount queue⟩, n.broadcasts⟩

/-- The ends of all queues by node. -/
def wiring (p : Plan) : Except RunError (List (NodeId × Endpoints)) :=
  match sharedQueue? [] (p.nodeList.flatMap Node.listens) with
  | some queue => .error (.invalid (.sharedQueue queue))
  | none => .ok (p.nodeList.map fun n => (n.id, p.endpoints n))

end Plan

end ApproxQuery
