import ApproxQuery.Plan.Basic

/-! Orders and reachability over the edges of a plan. -/
namespace ApproxQuery

namespace Plan

/-- How many dependents of each node are still to come, and which nodes have none. -/
structure Pending where
  counts : AscendingMap NodeId Nat
  ready : List NodeId

/-- One dependent of a parent has come. A parent without further ones becomes ready, last. -/
def Pending.arrive (w : Pending) (parent : NodeId) : Except PlanError Pending :=
  match w.counts.find? parent with
  | some count =>
    .ok { counts := w.counts.insert parent (count - 1)
          ready := if count - 1 = 0 then w.ready ++ [parent] else w.ready }
  | none => .error (.unknownNode parent)

/-- Takes ready nodes one by one, gathering them in reverse. -/
def orderFrom (p : Plan) : Nat → Pending → List NodeId → Except PlanError (List NodeId)
  | 0, _, taken => .ok taken.reverse
  | fuel + 1, w, taken =>
    match w.ready with
    | [] => .ok taken.reverse
    | id :: ready => do
      let n ← p.getNode id
      let w ← n.parents.foldlM Pending.arrive { w with ready }
      orderFrom p fuel w (id :: taken)

/-- How many nodes an order lacks. Edges recorded at one end only can bring a node up twice; the
number is a 64-bit word, and wraps when the order is longer than the plan. -/
def shortfall (size ordered : Nat) : Nat :=
  if ordered ≤ size then size - ordered else UInt64.size - (ordered - size)

/-- All nodes, each after its dependents, those without dependents in ascending order first.
There is no such order when edges form a cycle. -/
def topologicalOrder (p : Plan) : Except PlanError (List NodeId) := do
  let counts := p.nodeList.foldl (fun counts n => counts.insert n.id n.dependents.length) .empty
  let ready := (counts.entries.filter fun entry => entry.2 = 0).map Prod.fst
  let order ← p.orderFrom (p.rounds * p.rounds) ⟨counts, ready⟩ []
  if order.length = p.size then return order
  else throw (.invalid (.cycle (shortfall p.size order.length)))

/-- Follows dependents from the nodes on the stack. -/
def reach (p : Plan) : Nat → List NodeId → List NodeId → List NodeId
  | 0, seen, _ => seen
  | _ + 1, seen, [] => seen
  | fuel + 1, seen, id :: stack =>
    let fresh := ascending (((p.node? id).map Node.dependents).getD [])
    let fresh := fresh.filter fun d => d ∉ seen
    p.reach fuel (fresh.foldl (fun seen d => insertAscending d seen) seen) (fresh ++ stack)

/-- The nodes reached through dependents, the start itself only if a cycle leads back. -/
def descendants (p : Plan) (start : NodeId) : List NodeId := p.reach p.rounds [] [start]

end Plan

end ApproxQuery
