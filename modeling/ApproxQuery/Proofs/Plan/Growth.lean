import ApproxQuery.Proofs.Plan.Unchecked
import ApproxQuery.Proofs.Plan.Sound

/-! A plan while it is built: numbers are drawn once, and the nodes that are there keep their
content. -/
namespace ApproxQuery

theorem Decimal.digitText_injective : Function.Injective Decimal.digitText := by
  intro a b same
  have digits : Nat.toDigits 10 a = Nat.toDigits 10 b := by
    simpa [Decimal.digitText] using congrArg String.toList same
  simpa using congrArg (fun digits => Nat.ofDigitChars 10 digits 0) digits

namespace Plan

/-- The scratch table that is named with the given number. -/
def numberedTable (p : Plan) (k : Nat) : TableName :=
  ⟨p.scratchSchema, "aqptemptable_" ++ (p.tag ++ "_" ++ Decimal.digitText k)⟩

theorem numberedTable_injective (p : Plan) : Function.Injective p.numberedTable := by
  intro a b same
  have texts : "aqptemptable_" ++ (p.tag ++ "_" ++ Decimal.digitText a)
      = "aqptemptable_" ++ (p.tag ++ "_" ++ Decimal.digitText b) := congrArg TableName.table same
  exact Decimal.digitText_injective
    ((String.append_right_inj _).mp ((String.append_right_inj _).mp texts))

/-- All numbers in use have been drawn. -/
structure Fresh (p : Plan) : Prop where
  nodes : ∀ {id n}, p.node? id = some n → id.index < p.nextNode
  queues : ∀ {id n queue}, p.node? id = some n → queue ∈ n.listens → queue.index < p.nextQueue
  tables : ∀ {id n}, p.node? id = some n → ∃ k < p.identifiers, n.scratch = p.numberedTable k

/-- Every node is still there, with parents and broadcasts that may have changed. -/
def Extends (p p' : Plan) : Prop :=
  ∀ id n, p.node? id = some n →
    ∃ parents broadcasts, p'.node? id = some { n with parents, broadcasts }

theorem Extends.refl (p : Plan) : p.Extends p := fun _ n found => ⟨n.parents, n.broadcasts, found⟩

theorem Extends.trans {p p' p'' : Plan} (first : p.Extends p') (second : p'.Extends p'') :
    p.Extends p'' := by
  intro id n found
  obtain ⟨_, _, found'⟩ := first id n found
  obtain ⟨parents, broadcasts, found''⟩ := second id _ found'
  exact ⟨parents, broadcasts, found''⟩

/-- Nodes are added under numbers drawn meanwhile. -/
structure Grown (p p' : Plan) : Prop extends SameFrame p p' where
  nextNode : p.nextNode ≤ p'.nextNode
  nextQueue : p.nextQueue ≤ p'.nextQueue
  identifiers : p.identifiers ≤ p'.identifiers
  old : ∀ {id}, id.index < p.nextNode → p'.node? id = p.node? id
  new : ∀ {id n}, p'.node? id = some n → p.nextNode ≤ id.index →
    ∃ k, p.identifiers ≤ k ∧ n.scratch = p.numberedTable k

namespace Grown

variable {p p' p'' : Plan}

theorem numberedTable_eq (same : SameFrame p p') (k : Nat) :
    p'.numberedTable k = p.numberedTable k := by
  rw [numberedTable, numberedTable, same.scratchSchema, same.tag]

theorem trans (first : Grown p p') (second : Grown p' p'') : Grown p p'' where
  toSameFrame := first.toSameFrame.trans second.toSameFrame
  nextNode := Nat.le_trans first.nextNode second.nextNode
  nextQueue := Nat.le_trans first.nextQueue second.nextQueue
  identifiers := Nat.le_trans first.identifiers second.identifiers
  old := by
    intro id below
    rw [second.old (Nat.lt_of_lt_of_le below first.nextNode), first.old below]
  new := by
    intro id n found above
    by_cases before : id.index < p'.nextNode
    · exact first.new (second.old before ▸ found) above
    · obtain ⟨k, drawn, named⟩ := second.new found (Nat.le_of_not_lt before)
      refine ⟨k, Nat.le_trans first.identifiers drawn, ?_⟩
      rw [named, numberedTable_eq first.toSameFrame]

theorem keeps (grown : Grown p p') (fresh : p.Fresh) : p.Extends p' := by
  intro id n found
  exact ⟨n.parents, n.broadcasts, (grown.old (fresh.nodes found)).trans found⟩

/-- Drawing numbers leaves the nodes as they are. -/
theorem of_draw {nodes queues names : Nat} (fresh : p.Fresh) (nextNode : p.nextNode ≤ nodes)
    (nextQueue : p.nextQueue ≤ queues) (identifiers : p.identifiers ≤ names) :
    Grown p { p with nextNode := nodes, nextQueue := queues, identifiers := names } where
  root := rfl
  catalog := rfl
  scratchSchema := rfl
  tag := rfl
  source := rfl
  nextNode := nextNode
  nextQueue := nextQueue
  identifiers := identifiers
  old := fun _ => rfl
  new := fun found above => absurd (fresh.nodes found) (Nat.not_lt.mpr above)

end Grown

theorem Fresh.of_draw {p : Plan} {nodes queues names : Nat} (fresh : p.Fresh)
    (nextNode : p.nextNode ≤ nodes) (nextQueue : p.nextQueue ≤ queues)
    (identifiers : p.identifiers ≤ names) :
    Fresh { p with nextNode := nodes, nextQueue := queues, identifiers := names } where
  nodes := fun found => Nat.lt_of_lt_of_le (fresh.nodes found) nextNode
  queues := fun found member => Nat.lt_of_lt_of_le (fresh.queues found member) nextQueue
  tables := by
    intro id n found
    obtain ⟨k, drawn, named⟩ := fresh.tables found
    exact ⟨k, Nat.lt_of_lt_of_le drawn identifiers, named⟩

theorem Sound.of_nodes {p p' : Plan} {tops : List NodeId} (sound : p.Sound tops)
    (same : p'.nodes = p.nodes) : p'.Sound tops := by
  rcases p with ⟨nodes⟩
  rcases p' with ⟨nodes'⟩
  cases same
  exact ⟨sound.ordered, sound.named, sound.consistent, sound.top, sound.below, sound.reads,
    sound.stored, sound.scratch, sound.queues, sound.aggregates⟩

end Plan

end ApproxQuery
