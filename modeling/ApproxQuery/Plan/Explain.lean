import ApproxQuery.Plan.Basic

/-! A readable listing of a plan: the root first, dependents indented below their consumer,
a shared node once. -/
namespace ApproxQuery

namespace Plan

/-- Queue numbers separated by commas, or a dash when there are none. -/
def queueText : List QueueId → String
  | [] => "-"
  | queues => ",".intercalate (queues.map fun q => Decimal.digitText q.index)

/-- A listing under way. -/
structure Listing where
  printed : List NodeId
  lines : List String

/-- The three lines of a node: what it is, its queues, its statement. -/
def describe (p : Plan) (d : Sql.Dialect) (pad : String) (n : Node) :
    Except PlanError (List String) := do
  let target := if p.root = some n.id then "result" else n.scratch.dotted
  let scrambled := match n.scramble? with
    | some s => " over " ++ s.name.dotted ++ " in " ++ Decimal.digitText s.blockCount ++ " blocks"
    | none => ""
  let statement ← (Sql.select d n.query).mapError .sql
  return [pad ++ "- " ++ n.id.label ++ " [" ++ n.kind.label ++ "] -> " ++ target ++ scrambled,
    pad ++ "  listens " ++ queueText n.listens ++ " / broadcasts " ++ queueText n.broadcasts,
    pad ++ "  " ++ statement]

/-- Lists a node and what it reads. Each level prints a node not printed before, so there are no
more levels than nodes. -/
def listNode (p : Plan) (d : Sql.Dialect) : Nat → String → Listing → NodeId →
    Except PlanError Listing
  | 0, _, listing, _ => .ok listing
  | fuel + 1, pad, listing, id => do
    let n ← p.getNode id
    if listing.printed.contains id then
      return { listing with
        lines := listing.lines ++ [pad ++ "- " ++ id.label ++ " (shared, see above)"] }
    else
      let lines ← p.describe d pad n
      n.dependents.foldlM (p.listNode d fuel (pad ++ "  "))
        { printed := id :: listing.printed, lines := listing.lines ++ lines }

/-- The listing as lines. -/
def explainLines (p : Plan) (d : Sql.Dialect) : Except PlanError (List String) := do
  let header := "plan " ++ p.tag ++ " (" ++ Decimal.digitText p.size ++ " node"
    ++ (if p.size = 1 then "" else "s") ++ ")"
  match p.root with
  | none => return [header]
  | some root => return (← p.listNode d (p.size + 1) "" ⟨[], [header]⟩ root).lines

/-- The listing as a text, each line with its end. -/
def explain (p : Plan) (d : Sql.Dialect) : Except PlanError String := do
  return String.join ((← p.explainLines d).map (· ++ "\n"))

end Plan

end ApproxQuery
