import ApproxQuery.Proofs.Run.Executed
import ApproxQuery.Proofs.Run.Queues

/-! What a run comes to. It has an answer when every task has ended well; it is cancelled when nothing is
wrong but that tasks were cancelled; and otherwise it fails with the first error that is more than that,
however many cancelled tasks were joined before. -/
namespace ApproxQuery

namespace Setting

/-- How many increments of one node have been executed. -/
def incrementsOf (s : Setting) (log : List Event) (id : NodeId) : Nat :=
  ((s.node? id).map fun n => n.incrementsIn (executedBy id log)).getD 0

/-- How many increments have been executed, of all nodes together. -/
def increments (s : Setting) (log : List Event) : Nat := (s.plan.nodeIds.map (s.incrementsOf log)).sum

variable {s : Setting} {st : RunState}

theorem Task.ok_or_aborted {st' : RunState} {id : NodeId} {outcome : TaskOutcome}
    (task : Task s st id (.signalled outcome) .joined st') :
    outcome.isOk = true ∨ st'.level.isAborted = true := by
  cases task with
  | joins =>
    dsimp only
    split
    · rename_i ok
      exact .inl ok
    · exact .inr (isAborted_raise_abort st.level)

/-- Where a task is joined with an error the run is aborted. -/
theorem Reached.ok_or_aborted (named : ∀ {id n}, s.node? id = some n → n.id = id) (reached : s.Reached st)
    {id : NodeId} {outcome : TaskOutcome} (member : (id, outcome) ∈ st.joined) :
    outcome.isOk = true ∨ st.level.isAborted = true := by
  induction reached with
  | start permits level => cases member
  | @step st st' _ _ stepped ih =>
    rcases step_cases named stepped with ⟨other, old, new, now, task⟩ | ⟨level, _, rfl⟩ | ⟨_, _, _, rfl⟩
    · have early (before : (id, outcome) ∈ st.joined) := (ih before).imp_right task.aborted_mono
      rcases task.joined_cases with ⟨_, same⟩ | ⟨own, rfl, rfl, more⟩
      · exact early (same ▸ member)
      · rcases List.mem_append.mp (more ▸ member) with before | last
        · exact early before
        · cases List.mem_singleton.mp last
          exact task.ok_or_aborted
    · exact (ih member).imp_right fun aborted => isAborted_raise aborted level
    · exact ih member

section Fine

variable (sound : s.plan.Sound [s.root]) (reached : s.Reached st) (finished : st.allJoined = true)
  (fine : ∀ id outcome, (id, outcome) ∈ st.joined → outcome.isOk = true)

include sound reached finished fine

/-- When all tasks have ended well, that of the root has an answer. -/
private theorem Reached.answered : ∃ result, (st.account (some s.root)).answer = some result := by
  obtain ⟨n, found, _⟩ := sound.top s.root List.mem_cons_self
  have noted : s.root ∈ st.joined.map Prod.fst :=
    (reached.joined_perm sound.paired finished).mem_iff.mpr (sound.paired.mem_nodeIds.mpr ⟨n, found⟩)
  obtain ⟨⟨id, outcome⟩, member, same⟩ := List.mem_map.mp noted
  cases outcome with
  | error e => exact nomatch fine id _ member
  | ok report =>
    obtain ⟨own, joined, answer⟩ := (st.account_of (some s.root)).answer (congrArg some same) member
    cases same
    obtain ⟨_, result, _⟩ := (reached.executing sound.paired).ended found joined own rfl
    rw [answer]
    exact Option.isSome_iff_exists.mp (result.trans (decide_eq_true (sound.named found)))

/-- When all tasks have ended well, the increments they report are those that have been executed. -/
private theorem Reached.updates_eq :
    (Engine.manifestOf s.plan st).progressUpdates = s.increments st.log := by
  have told : ∀ entry ∈ st.joined, entry.2.updates = s.incrementsOf st.log entry.1 := by
    rintro ⟨id, outcome⟩ joined
    have inPlan := (reached.joined_perm sound.paired finished).subset (List.mem_map_of_mem joined)
    obtain ⟨n, found⟩ := sound.paired.mem_nodeIds.mp inPlan
    cases outcome with
    | error e => exact nomatch fine id _ joined
    | ok report =>
      obtain ⟨_, _, updates⟩ := (reached.executing sound.paired).ended found joined report rfl
      rw [incrementsOf, node?, found]
      exact updates
  calc (Engine.manifestOf s.plan st).progressUpdates
      = (st.joined.map fun entry => entry.2.updates).sum := (st.account_of s.plan.root).updates
    _ = ((st.joined.map Prod.fst).map (s.incrementsOf st.log)).sum := by
        rw [List.map_map, List.map_congr_left told]
        rfl
    _ = s.increments st.log := ((reached.joined_perm sound.paired finished).map _).sum_eq

end Fine

/-- In a run of a reachable plan every task is started and joined once, and a task that has failed is joined only into
a run that is aborted. When all tasks have been joined, there is an answer if each has ended well, and then each node
counts as completed and each increment that was executed as an update. The run is cancelled if some tasks were and
nothing else has failed. Otherwise its error is that of the task that was joined first among those with a failure of
their own, however many cancelled tasks were joined before. -/
theorem Reached.verdict_classified (planned : s.plan.Reachable) (rooted : s.plan.root = some s.root)
    (reached : s.Reached st) (finished : st.allJoined = true) :
    (∃ order ends, s.plan.topologicalOrder = .ok order ∧ s.plan.wiring = .ok ends)
      ∧ (st.joined.map Prod.fst).Perm s.plan.nodeIds
      ∧ (∀ id e, (id, .error e) ∈ st.joined → st.level.isAborted = true)
      ∧ ((∃ result, st.verdict s.root = .ok result)
        ↔ ∀ id outcome, (id, outcome) ∈ st.joined → outcome.isOk = true)
      ∧ (∀ result, st.verdict s.root = .ok result →
        (Engine.manifestOf s.plan st).nodesCompleted = s.plan.size
          ∧ (Engine.manifestOf s.plan st).progressUpdates = s.increments st.log)
      ∧ (st.verdict s.root = .error .cancelled ↔ OnlyCancelled st.joined)
      ∧ ∀ e, e ≠ .cancelled → (st.verdict s.root = .error e ↔ FailsFirst st.joined e) := by
  obtain ⟨root, rooted', sound⟩ := planned.sound
  cases rooted.symm.trans rooted'
  obtain ⟨order, ordered, _⟩ := Plan.topologicalOrder_ok sound.paired sound.founded
  have classified := (st.account_of (some s.root)).error
  have answered (well : (st.account (some s.root)).error = none) : ∃ result, st.verdict s.root = .ok result := by
    obtain ⟨result, told⟩ := reached.answered sound finished (classified.eq_none_iff.mp well)
    exact ⟨result, Account.outcome_eq_ok well told⟩
  have unfailed {result} (ok : st.verdict s.root = .ok result) : (st.account (some s.root)).error = none := by
    cases failed : (st.account (some s.root)).error with
    | none => rfl
    | some e => cases ok.symm.trans (Account.outcome_eq_error failed)
  have failed_iff (e : RunError) : st.verdict s.root = .error e ↔ (st.account (some s.root)).error = some e := by
    refine ⟨fun error => ?_, Account.outcome_eq_error⟩
    cases failed : (st.account (some s.root)).error with
    | none =>
      obtain ⟨result, ok⟩ := answered failed
      cases ok.symm.trans error
    | some own => rw [Except.error.inj ((Account.outcome_eq_error failed).symm.trans error)]
  refine ⟨⟨order, _, ordered, sound.wiring_eq⟩, reached.joined_perm sound.paired finished, ?_, ?_, ?_, ?_, ?_⟩
  · exact fun id e member => (reached.ok_or_aborted sound.paired.named member).resolve_left nofun
  · rw [← classified.eq_none_iff]
    exact ⟨fun ⟨_, ok⟩ => unfailed ok, answered⟩
  · intro result ok
    have fine := classified.eq_none_iff.mp (unfailed ok)
    refine ⟨?_, reached.updates_eq sound finished fine⟩
    exact ((st.account_of s.plan.root).completed_eq fine).trans (reached.joined_length sound.paired finished)
  · exact (failed_iff .cancelled).trans classified.eq_cancelled_iff
  · exact fun e real => (failed_iff e).trans (classified.eq_failed_iff real)

section Sample

/-- The first dependent fails, the second ends well, and the root is cancelled by the token of the first.
The scheduler learns of the failure last. -/
def busyDaysFailing : List Action :=
  [.acquire ⟨1⟩, .proceed ⟨1⟩, .answer ⟨1⟩ (.error (.rejected "disk full")), .signal ⟨1⟩]
  ++ [.acquire ⟨2⟩, .proceed ⟨2⟩, .answer ⟨2⟩ (.ok ⟨[], []⟩), .signal ⟨2⟩, .join ⟨2⟩]
  ++ [.receive ⟨0⟩, .signal ⟨0⟩, .join ⟨0⟩, .join ⟨1⟩]

/-- A task has ended well, then one was cancelled, and then one has failed. -/
private def endsBadly : List (NodeId × TaskOutcome) → Bool
  | [(_, .ok _), (_, .error .cancelled), (_, .error e)] => !e.isCancelled
  | _ => false

/-- The run fails with what the first dependent failed with, though the root was joined before it. -/
theorem busyDays_verdict : ∃ st e, busyDaysSetting.Reached st ∧ st.allJoined = true
    ∧ (st.joined.map fun entry => entry.2.error?) = [none, some .cancelled, some e] ∧ e ≠ .cancelled
    ∧ st.verdict ⟨0⟩ = .error e ∧ FailsFirst st.joined e := by
  have checked : ((busyDaysFailing.foldlM busyDaysSetting.step (busyDaysSetting.initial 1 .none)).any
      fun (st : RunState) => st.allJoined && endsBadly st.joined) = true := by
    decide +kernel
  obtain ⟨st, ran, looked⟩ := (Option.any_eq_true _ _).mp checked
  obtain ⟨finished, kinds⟩ := Bool.and_eq_true_iff.mp looked
  unfold endsBadly at kinds
  split at kinds
  · rename_i own answer root id e joined
    have real : e ≠ .cancelled := fun cancels => by
      rw [RunError.isCancelled_iff.mpr cancels] at kinds
      cases kinds
    have first : FailsFirst st.joined e :=
      ⟨[(own, .ok answer), (root, .error .cancelled)], id, [], joined, fun other e' member => by simp_all⟩
    have reached : busyDaysSetting.Reached st := (Reached.start 1 .none).run ran
    obtain ⟨_, _, _, _, _, _, classified⟩ :=
      Reached.verdict_classified (s := busyDaysSetting) Plan.busyDaysPlan_reachable rfl reached finished
    exact ⟨st, e, reached, finished, by rw [joined]; rfl, real, (classified e real).mpr first, first⟩
  · cases kinds

end Sample

end Setting

end ApproxQuery
