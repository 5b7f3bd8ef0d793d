/-! Identifiers of plan nodes and of the token queues between them. -/
namespace ApproxQuery

/-- A node of a plan. -/
structure NodeId where
  index : Nat
deriving DecidableEq, Repr, Inhabited

instance : LT NodeId := ⟨fun a b => a.index < b.index⟩

instance (a b : NodeId) : Decidable (a < b) := inferInstanceAs (Decidable (a.index < b.index))

/-- The spelling used in every message, such as `NodeId(3)`. -/
def NodeId.label (id : NodeId) : String := s!"NodeId({id.index})"

/-- A queue that carries completion tokens from dependents to one consumer. -/
structure QueueId where
  index : Nat
deriving DecidableEq, Repr, Inhabited

instance : LT QueueId := ⟨fun a b => a.index < b.index⟩

instance (a b : QueueId) : Decidable (a < b) := inferInstanceAs (Decidable (a.index < b.index))

/-- The spelling used in every message, such as `QueueId(3)`. -/
def QueueId.label (id : QueueId) : String := s!"QueueId({id.index})"

end ApproxQuery
