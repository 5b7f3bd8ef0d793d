import ApproxQuery.Proofs.Estimate.Increment
import ApproxQuery.Proofs.Plan.Order
import ApproxQuery.Proofs.Run.Steps

/-! The states of a run, and what its tasks ask for: each reads only what its node reads. -/
namespace ApproxQuery

/-- The placeholders in a statement. -/
def Statement.placeholders : Statement → List PlaceholderRef
  | .select query => query.placeholders
  | .createTableAs _ query => query.placeholders
  | .dropTable _ _ => []

/-- The queries that a turn has at hand. -/
def Turn.queries : Turn → List Query
  | .whole => []
  | .increment _ _ last => (last.map Prod.fst).toList
  | .store query _ => [query]

/-- A turn has only queries at hand that read what the node reads. -/
def Turn.Reads (n : Node) (turn : Turn) : Prop :=
  ∀ q ∈ turn.queries, q.placeholders ⊆ n.query.placeholders

namespace Setting

/-- The states that a run can come to, with any number of permits and any cancellation. -/
inductive Reached (s : Setting) : RunState → Prop
  | start (permits : Nat) (level : CancelLevel) : Reached s (s.initial permits level)
  | step {st st' : RunState} {a : Action} (before : Reached s st) (stepped : s.step st a = some st') :
    Reached s st'

/-- What a task with a permit has at hand, or has asked, comes from its node. -/
def Ready (s : Setting) (n : Node) : Phase → Prop
  | .running turn => turn.Reads n
  | .asking awaited statement => ∃ turn : Turn, turn.Reads n ∧ Asks s n turn awaited statement
  | _ => True

/-- All tasks belong to nodes, and have only at hand what comes from them. -/
def Prepared (s : Setting) (st : RunState) : Prop :=
  ∀ id phase, st.phase? id = some phase → ∃ n, s.node? id = some n ∧ Ready s n phase

variable {s : Setting} {st st' : RunState} {n : Node} {id : NodeId} {old new : Phase}

/-- Any series of possible steps leads to a state of a run. -/
theorem Reached.run {actions : List Action} (reached : s.Reached st)
    (ran : actions.foldlM s.step st = some st') : s.Reached st' := by
  induction actions generalizing st with
  | nil => exact Option.some.inj ran ▸ reached
  | cons a rest ih =>
    rw [List.foldlM_cons] at ran
    obtain ⟨next, stepped, more⟩ := Option.bind_eq_some_iff.mp ran
    exact ih (reached.step stepped) more

theorem Asks.placeholders_subset {turn : Turn} {awaited : Awaited} {statement : Statement}
    (asked : Asks s n turn awaited statement) (reads : turn.Reads n) :
    statement.placeholders ⊆ n.query.placeholders := by
  cases asked with
  | answer _ => exact List.Subset.refl _
  | whole _ => exact List.Subset.refl _
  | increment _ made => exact fun ref => (Query.mem_placeholders_increment made).mp
  | store => exact reads _ List.mem_cons_self

private theorem reads_firstTurn (n : Node) : (firstTurn n).Reads n := by
  unfold firstTurn
  cases n.kind with
  | projection => exact fun _ member => nomatch member
  | aggregate => exact fun _ member => nomatch member
  | progressive scramble => exact fun _ member => nomatch member

/-- A task that does something stays ready. -/
theorem Task.ready (task : Task s st id old new st') (found : s.node? id = some n)
    (ready : Ready s n old) : Ready s n new := by
  cases task with
  | acquires found' _ =>
    cases found.symm.trans found'
    exact reads_firstTurn n
  | asks found' asked _ =>
    cases found.symm.trans found'
    exact ⟨_, ready, asked⟩
  | stores _ _ => exact ready
  | advances =>
    obtain ⟨turn, reads, asked⟩ := ready
    cases asked with
    | increment _ made =>
      intro q member
      rw [List.mem_singleton.mp member]
      exact fun ref => (Query.mem_placeholders_increment made).mp
  | _ => trivial

/-- At first every node waits for its tokens. -/
theorem phase?_initial (paired : s.plan.Paired) (permits : Nat) (level : CancelLevel) (id : NodeId) :
    (s.initial permits level).phase? id
      = (s.node? id).map fun n => .waiting (missingTokens s.plan n) := by
  have keys : s.plan.nodeList.map Node.id = s.plan.nodeIds := paired.map_id_nodeList
  have distinct : (s.plan.nodeList.map Node.id).Nodup := keys ▸ paired.ordered.nodup_keys
  cases found : s.node? id with
  | none =>
    refine (AscendingMap.find?_foldl_insert_of_not_mem Node.id
      (fun n => Phase.waiting (missingTokens s.plan n)) .empty fun member => ?_).trans rfl
    obtain ⟨n, there⟩ := paired.mem_nodeIds.mp (keys ▸ member)
    cases found.symm.trans there
  | some n =>
    cases paired.named found
    exact AscendingMap.find?_foldl_insert Node.id (fun n => Phase.waiting (missingTokens s.plan n)) .empty
      distinct (paired.mem_nodeList.mpr found)

/-- In every state of a run all tasks are ready. -/
theorem Reached.prepared (paired : s.plan.Paired) (reached : s.Reached st) : s.Prepared st := by
  induction reached with
  | start permits level =>
    intro id phase there
    rw [phase?_initial paired] at there
    obtain ⟨n, found, rfl⟩ := Option.map_eq_some_iff.mp there
    exact ⟨n, found, trivial⟩
  | step _ stepped ih =>
    rcases step_cases paired.named stepped with ⟨id, old, new, now, task⟩ | ⟨level, _, rfl⟩ | ⟨_, _, _, rfl⟩
    · intro other phase there
      rw [task.phase?_eq] at there
      split at there
      · rename_i same
        cases there
        obtain ⟨n, found, ready⟩ := ih id old now
        exact ⟨n, same ▸ found, task.ready found ready⟩
      · exact ih other phase there
    · exact ih
    · exact ih

end Setting

end ApproxQuery
