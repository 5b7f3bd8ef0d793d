import ApproxQuery.Proofs.Plan.Scope
import ApproxQuery.Proofs.Run.Sending

/-! What is sent can be evaluated on its own. A task sends the query of its node or increments of it,
and these have no free names. -/
namespace ApproxQuery

/-- The query that a statement evaluates. -/
def Statement.query? : Statement → Option Query
  | .select query => some query
  | .createTableAs _ query => some query
  | .dropTable _ _ => none

/-- The query that an event sends. -/
def Event.query? : Event → Option Query
  | .sent _ statement => statement.query?
  | _ => none

/-- A query that the task of a node may send: that of the node, or an increment of it. -/
inductive Node.Poses (n : Node) : Query → Prop
  | whole : Poses n n.query
  | increment {scramble k query} (kind : n.kind = .progressive scramble)
    (made : n.query.increment scramble k = .ok query) : Poses n query

variable {n : Node} {query : Query}

theorem Node.Increments.poses {scramble : ScrambleMeta} {queries : List Query}
    (made : n.Increments scramble queries) (member : query ∈ queries) : n.Poses query := by
  obtain ⟨k, _, next⟩ := Plan.exists_of_forall₂ (List.Forall₂.flip made.each) member
  exact .increment made.kind next

theorem Node.Poses.freeRefs (poses : n.Poses query) (closed : n.query.freeRefs = []) :
    query.freeRefs = [] := by
  cases poses with
  | whole => exact closed
  | increment kind made =>
    rw [List.eq_nil_iff_forall_not_mem] at closed ⊢
    exact fun name free => closed name ((Query.mem_freeRefs_increment made).mp free)

namespace Setting

variable {s : Setting} {st st' : RunState} {id : NodeId} {statement : Statement}

theorem Asks.poses {turn : Turn} {awaited : Awaited} {root : NodeId} {stops : Bool}
    {sent : List Statement} (asked : Asks s n turn awaited statement)
    (follows : turn.Follows n root stops sent) (own : statement.query? = some query) : n.Poses query := by
  cases asked with
  | answer atRoot =>
    cases own
    exact .whole
  | whole below =>
    cases own
    exact .whole
  | increment due made =>
    cases own
    cases follows with
    | increment before _ => exact .increment before.kind made
  | store =>
    cases own
    cases follows with
    | store through _ => exact through.poses (List.mem_of_getLast? through.latest)

/-- Every query that was sent is that of a node or an increment of it. -/
def Posed (s : Setting) (log : List Event) : Prop :=
  ∀ who statement, .sent who statement ∈ log → ∀ query, statement.query? = some query →
    ∃ id n, s.node? id = some n ∧ n.Poses query

private theorem Posed.append {log : List Event} {event : Event} (posed : s.Posed log)
    (own : ∀ who statement, event = .sent who statement → ∀ query, statement.query? = some query →
      ∃ id n, s.node? id = some n ∧ n.Poses query) : s.Posed (log ++ [event]) := by
  intro who statement member
  rcases List.mem_append.mp member with early | late
  · exact posed who statement early
  · exact own who statement (List.mem_singleton.mp late).symm

theorem Reached.posed (paired : s.plan.Paired) (reached : s.Reached st) : s.Posed st.log := by
  induction reached with
  | start permits level => exact fun _ _ member => nomatch member
  | @step st st' _ before stepped ih =>
    rcases step_cases paired.named stepped with ⟨id, old, new, now, task⟩ | ⟨level, _, rfl⟩ | ⟨table, _, _, rfl⟩
    · rcases task.log_cases with same | ⟨n, turn, _, statement, found, rfl, asked, _, more⟩ | ⟨event, more, quiet⟩
      · exact same ▸ ih
      · rw [more]
        refine ih.append fun who statement' same query own => ?_
        cases same
        exact ⟨id, n, found, asked.poses ((before.sending paired).tasks found now) own⟩
      · rw [more]
        exact ih.append fun who statement same => absurd same (quiet who statement)
    · exact ih.append nofun
    · refine (ih.append fun who statement same query own => ?_).append nofun
      cases same
      cases own

end Setting

/-- No query of a reachable plan has free names, no increment of a progressive one has, and so no
statement that is sent names a table that it does not bind. -/
theorem Plan.Reachable.self_contained {p : Plan} (reachable : p.Reachable) (covered : p.catalog.Covered) :
    (∀ id n, p.node? id = some n → n.query.freeNames = []
      ∧ ∀ scramble, n.kind = .progressive scramble → ∀ k, 0 < k → k ≤ scramble.blockCount →
        ∃ query, n.query.increment scramble k = .ok query ∧ query.freeNames = [])
      ∧ ∀ (s : Setting) st, s.plan = p → s.Reached st →
        ∀ who statement, .sent who statement ∈ st.log → ∀ query, statement.query? = some query →
          query.freeNames = [] := by
  constructor
  · intro id n found
    have closed := reachable.freeRefs found
    refine ⟨Query.freeNames_eq_nil.mpr closed, fun scramble kind k started within => ?_⟩
    obtain ⟨query, made⟩ :=
      Query.increment_ok (reachable.covered covered found kind) started within n.query
    have poses : n.Poses query := .increment kind made
    exact ⟨query, made, Query.freeNames_eq_nil.mpr (poses.freeRefs closed)⟩
  · rintro s st rfl reached who statement member query own
    obtain ⟨root, _, sound⟩ := reachable.sound
    obtain ⟨id, n, found, poses⟩ := reached.posed sound.paired who statement member query own
    exact Query.freeNames_eq_nil.mpr (poses.freeRefs (reachable.freeRefs found))

/-- In a run of the sample plan the progressive node sends its first increment. -/
theorem Plan.busyHalvesPlan_self_contained :
    (∃ n scramble query, busyHalvesPlan.node? ⟨1⟩ = some n ∧ n.kind = .progressive scramble
      ∧ n.query.freeNames = [] ∧ n.query.increment scramble 1 = .ok query ∧ query.freeNames = [])
    ∧ ∃ st who statement query, (Setting.mk busyHalvesPlan ⟨0⟩ .ansi true true).Reached st
      ∧ .sent who statement ∈ st.log ∧ statement.query? = some query ∧ query.freeNames = [] := by
  obtain ⟨nodes, sent⟩ := Reachable.self_contained busyHalvesPlan_reachable busyHalvesPlan_covered
  constructor
  · have there : ((busyHalvesPlan.node? ⟨1⟩).any fun n => n.isProgressive) = true := by
      decide +kernel
    obtain ⟨n, found, progressive⟩ := (Option.any_eq_true _ _).mp there
    obtain ⟨scramble, kind⟩ : ∃ scramble, n.kind = .progressive scramble := by
      cases kind : n.kind with
      | progressive scramble => exact ⟨scramble, rfl⟩
      | _ =>
        rw [Node.isProgressive, Node.scramble?, kind] at progressive
        cases progressive
    have some := (busyHalvesPlan_reachable.covered busyHalvesPlan_covered found kind).1
    obtain ⟨free, increments⟩ := nodes ⟨1⟩ n found
    obtain ⟨query, made, closed⟩ := increments scramble kind 1 Nat.one_pos some
    exact ⟨n, scramble, query, found, kind, free, made, closed⟩
  · have checked : ((([.acquire ⟨1⟩, .proceed ⟨1⟩] : List Action).foldlM
        (Setting.mk busyHalvesPlan ⟨0⟩ .ansi true true).step
        ((Setting.mk busyHalvesPlan ⟨0⟩ .ansi true true).initial 1 .none)).any
        fun (st : RunState) => st.log.any fun event => event.query?.isSome) = true := by
      decide +kernel
    obtain ⟨st, ran, looked⟩ := (Option.any_eq_true _ _).mp checked
    obtain ⟨event, member, poses⟩ := List.any_eq_true.mp looked
    obtain ⟨query, own⟩ := Option.isSome_iff_exists.mp poses
    have reached := (Setting.Reached.start 1 .none).run ran
    cases event with
    | sent who statement =>
      exact ⟨st, who, statement, query, reached, member, own,
        sent _ st rfl reached who statement member query own⟩
    | answered who statement succeeded => cases own
    | raised level => cases own

end ApproxQuery
