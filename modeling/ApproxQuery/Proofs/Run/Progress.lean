import ApproxQuery.Proofs.Run.Tokens

/-! A run is never stuck: a permit that is missing is held by a task that can go on, and a task that
waits for tokens waits for one further down. -/
namespace ApproxQuery

/-- The task that acts. The scheduler, who joins tasks, and those who cancel or clean up are none. -/
def Action.task? : Action → Option NodeId
  | .receive id => some id
  | .giveUp id => some id
  | .acquire id => some id
  | .proceed id => some id
  | .answer id _ => some id
  | .signal id => some id
  | .join _ => none
  | .raise _ => none
  | .drop _ => none

namespace Setting

variable {s : Setting} {st st' : RunState} {id : NodeId} {n : Node} {old new phase : Phase}

/-- Some task can take a step. -/
def CanAct (s : Setting) (st : RunState) : Prop :=
  ∃ a who, a.task? = some who ∧ (s.step st a).isSome = true

/-- Every node has a task. -/
theorem Reached.live (paired : s.plan.Paired) (reached : s.Reached st) (found : s.node? id = some n) :
    ∃ phase, st.phase? id = some phase := by
  induction reached with
  | start permits level => exact ⟨_, by rw [phase?_initial paired, found]; rfl⟩
  | step _ stepped ih =>
    rcases step_cases paired.named stepped with ⟨own, old, new, _, task⟩ | ⟨level, _, rfl⟩ | ⟨_, _, _, rfl⟩
    · rw [task.phase?_eq]
      split
      · exact ⟨new, rfl⟩
      · exact ih
    · exact ih
    · exact ih

section Permits

/-- How many of the nodes have tasks with a permit. -/
def holders (s : Setting) (st : RunState) : Nat :=
  s.plan.nodeIds.countP fun id => (st.phase? id).any Phase.holdsPermit

/-- A permit is taken when a task gets one, and given back when the task is done with it. -/
theorem Task.permits_eq (task : Task s st id old new st') :
    st'.permits + new.holdsPermit.toNat = st.permits + old.holdsPermit.toNat := by
  cases task with
  | acquires found permits => exact Nat.sub_add_cancel (Nat.pos_of_ne_zero permits)
  | asks =>
    rw [RunState.recordFor_eq]
    rfl
  | mute =>
    rw [RunState.recordFor_eq]
    rfl
  | advances =>
    rw [publish_eq]
    rfl
  | joins =>
    dsimp only
    split
    · rfl
    · rfl
  | _ => rfl

private theorem countP_change {ids : List NodeId} (distinct : ids.Nodup) (member : id ∈ ids)
    {f g : NodeId → Bool} (other : ∀ d, d ≠ id → g d = f d) :
    ids.countP g + (f id).toNat = ids.countP f + (g id).toNat := by
  have split := List.perm_cons_erase member
  have rest : (ids.erase id).countP g = (ids.erase id).countP f :=
    List.countP_congr fun d inRest => by
      rw [other d (distinct.mem_erase_iff.mp inRest).1]
  rw [split.countP_eq, split.countP_eq, List.countP_cons, List.countP_cons, rest]
  cases f id <;> cases g id <;> simp

/-- The permits that are left and those that are held are at least one. -/
private theorem Reached.some_permit (sound : s.plan.Sound [s.root]) (reached : s.Reached st) :
    1 ≤ st.permits + s.holders st := by
  induction reached with
  | start permits level => exact Nat.le_add_right_of_le (Nat.le_max_right permits 1)
  | @step st st' _ before stepped ih =>
    rcases step_cases sound.named stepped with ⟨id, old, new, now, task⟩ | ⟨level, _, rfl⟩ | ⟨_, _, _, rfl⟩
    · obtain ⟨n, found, _⟩ := before.prepared sound.paired id old now
      have distinct : s.plan.nodeIds.Nodup := sound.ordered.nodup_keys
      have live := sound.paired.mem_nodeIds.mpr ⟨n, found⟩
      have after : st'.phase? id = some new := by rw [task.phase?_eq, if_pos rfl]
      have change := countP_change distinct live
        (f := fun id => (st.phase? id).any Phase.holdsPermit)
        (g := fun id => (st'.phase? id).any Phase.holdsPermit) fun d different => by
          rw [task.phase?_eq, if_neg (Ne.symm different)]
      rw [now, after, Option.any_some, Option.any_some] at change
      have permits := task.permits_eq
      unfold holders at ih ⊢
      omega
    · exact ih
    · exact ih

/-- Where no permit is left a task has one. -/
theorem Reached.exists_holder (sound : s.plan.Sound [s.root]) (reached : s.Reached st)
    (none : st.permits = 0) : ∃ id phase, st.phase? id = some phase ∧ phase.holdsPermit = true := by
  have held : 0 < s.holders st := by
    have atLeast := reached.some_permit sound
    rwa [none, Nat.zero_add] at atLeast
  obtain ⟨id, _, holds⟩ := List.countP_pos_iff.mp held
  obtain ⟨phase, there, has⟩ := (Option.any_eq_true _ _).mp holds
  exact ⟨id, phase, there, has⟩

end Permits

section Acting

variable (prepared : s.Prepared st) (there : st.phase? id = some phase)

include prepared there

private theorem canAct_of_holding (holds : phase.holdsPermit = true) : s.CanAct st := by
  obtain ⟨n, found, _⟩ := prepared id phase there
  cases phase with
  | running turn => exact ⟨.proceed id, id, rfl, by simp [step, there, found]⟩
  | asking awaited statement =>
    exact ⟨.answer id (.error (.rejected "")), id, rfl, by simp [step, there, found]⟩
  | _ => cases holds

private theorem canAct_of_returned {outcome : TaskOutcome} (ended : phase = .returned outcome) :
    s.CanAct st := by
  subst ended
  obtain ⟨n, found, _⟩ := prepared id _ there
  exact ⟨.signal id, id, rfl, by simp [step, there, found]⟩

end Acting

/-- As long as a task has not signalled, some task can take a step. -/
theorem Reached.canAct (sound : s.plan.Sound [s.root]) (reached : s.Reached st)
    (there : st.phase? id = some phase) (unfinished : phase.hasSignalled = false) : s.CanAct st := by
  have prepared := reached.prepared sound.paired
  -- The induction goes down the plan, from a task that waits to one it waits for.
  induction id using sound.founded.induction generalizing phase with
  | _ id ih =>
    cases phase with
    | running turn => exact canAct_of_holding prepared there rfl
    | asking awaited statement => exact canAct_of_holding prepared there rfl
    | returned outcome => exact canAct_of_returned prepared there rfl
    | signalled outcome => cases unfinished
    | joined => cases unfinished
    | waiting missing =>
      obtain ⟨n, found, _⟩ := prepared id _ there
      obtain ⟨left, heard, counted, account⟩ := (reached.accounted sound).waiting there found
      rcases (sound.consistent found).outstanding_eq account.atMost with ⟨rfl, nothing⟩
        | ⟨queue, some, hears, single⟩
      · rw [counted.trans nothing] at there
        by_cases none : st.permits = 0
        · obtain ⟨other, phase, held, holds⟩ := reached.exists_holder sound none
          exact canAct_of_holding prepared held holds
        · exact ⟨.acquire id, id, rfl, by simp [Setting.step, there, found, none]⟩
      · rw [counted.trans single] at there
        cases tokens : st.tokensOn queue with
        | cons token later =>
          refine ⟨.receive id, id, rfl, ?_⟩
          rw [RunState.tokensOn] at tokens
          cases completed : token.completed with
          | true => simp [Setting.step, there, receive, tokens, completed]
          | false => simp [Setting.step, there, receive, tokens, completed]
        | nil =>
          -- All tokens that were sent have been heard, so some dependent has not signalled.
          have perm := account.signalled queue (hears ▸ List.mem_singleton_self queue)
          rw [tokens, List.map_nil, List.append_nil] at perm
          have fewer : (n.dependents.filter st.hasSignalled).length < n.dependents.length := by
            rw [← perm.length_eq, ← account.count]
            omega
          obtain ⟨d, reads, silent⟩ := List.length_filter_lt_length_iff_exists.mp fewer
          obtain ⟨m, live, _⟩ := sound.reads found reads
          obtain ⟨phase, below⟩ := reached.live sound.paired live
          refine ih d ⟨n, found, reads⟩ below ?_
          rw [RunState.hasSignalled, below, Option.any_some] at silent
          exact Bool.eq_false_iff.mpr silent

end Setting

end ApproxQuery
