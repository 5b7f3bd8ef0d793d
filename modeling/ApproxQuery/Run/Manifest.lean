import ApproxQuery.Digest
import ApproxQuery.Data.Basic

/-! The record of a run: what was run, and how much of it was done. -/
namespace ApproxQuery

structure Manifest where
  queryHash : Digest
  planHash : Digest
  instanceTag : String
  engineVersion : String
  nodesScheduled : Nat
  progressiveNodes : Nat
  nodesCompleted : Nat
  progressUpdates : Nat
  scratchTablesDropped : Nat
  /-- Milliseconds of the clock. -/
  started : Nat
  finished : Nat
deriving DecidableEq, Repr, Inhabited

namespace Manifest

/-- The version that every manifest names. -/
def version : String := "0.1.0"

/-- The record of a run that starts. Until it ends, its end is its start. -/
def start (queryHash planHash : Digest) (tag : String) (started : Nat) : Manifest :=
  ⟨queryHash, planHash, tag, version, 0, 0, 0, 0, 0, started, started⟩

def finish (m : Manifest) (finished : Nat) : Manifest := { m with finished }

/-- The duration; zero when the clock went back. -/
def elapsed (m : Manifest) : Nat := m.finished - m.started

end Manifest

end ApproxQuery
