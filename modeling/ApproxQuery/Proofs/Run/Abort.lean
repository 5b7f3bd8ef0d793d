import ApproxQuery.Proofs.Run.Outcome

/-! What a task sends after the run is aborted: nothing, but that the result of a last increment that
was being answered is still stored. -/
namespace ApproxQuery

namespace Setting

/-- What a task has sent since the run was aborted while it awaited an answer: nothing more than
before, or below the root the table for its last increment. -/
inductive Leaves (s : Setting) (n : Node) (awaited : Awaited) (sent : List Statement) :
    List Statement → Prop
  | nothing : Leaves s n awaited sent sent
  | stored {scramble query} (below : n.id ≠ s.root)
    (final : awaited = .increment scramble scramble.blockCount query) :
    Leaves s n awaited sent (sent ++ [.createTableAs n.scratch query])

/-- Where a task can get to in an aborted run from awaiting an answer, and what it has sent there. -/
inductive Subsides (s : Setting) (n : Node) (awaited : Awaited) (sent : List Statement) :
    Phase → List Statement → Prop
  | executing {turn statement} (asked : Asks s n turn awaited statement) :
    Subsides s n awaited sent (.asking awaited statement) sent
  | answered {scramble k query result} (due : k ≤ scramble.blockCount)
    (own : awaited = .increment scramble k query) :
    Subsides s n awaited sent (.running (.increment scramble (k + 1) (some (query, result)))) sent
  | finishing {scramble query updates} (below : n.id ≠ s.root)
    (final : awaited = .increment scramble scramble.blockCount query) :
    Subsides s n awaited sent (.running (.store query updates)) sent
  | storing {scramble query updates statement} (below : n.id ≠ s.root)
    (final : awaited = .increment scramble scramble.blockCount query) :
    Subsides s n awaited sent (.asking (.store updates) statement)
      (sent ++ [.createTableAs n.scratch query])
  | returned {outcome after} (leaves : s.Leaves n awaited sent after) :
    Subsides s n awaited sent (.returned outcome) after
  | signalled {outcome after} (leaves : s.Leaves n awaited sent after) :
    Subsides s n awaited sent (.signalled outcome) after
  | joined {after} (leaves : s.Leaves n awaited sent after) : Subsides s n awaited sent .joined after

variable {s : Setting} {st st' : RunState} {id : NodeId} {n : Node} {old new : Phase}
  {awaited : Awaited} {statement : Statement} {sent after : List Statement}

theorem Subsides.leaves {phase : Phase} (subsides : s.Subsides n awaited sent phase after) :
    s.Leaves n awaited sent after := by
  cases subsides with
  | executing asked => exact .nothing
  | answered due own => exact .nothing
  | finishing below final => exact .nothing
  | storing below final => exact .stored below final
  | returned leaves => exact leaves
  | signalled leaves => exact leaves
  | joined leaves => exact leaves

/-- The increments of an aborted run are over after the last only. -/
private theorem blockCount_of_over {scramble : ScrambleMeta} {k : Nat} (due : k ≤ scramble.blockCount)
    (aborted : st.level.isAborted = true) (spent : Over st scramble (k + 1)) :
    k = scramble.blockCount := by
  rcases spent with beyond | ⟨_, _, unaborted⟩
  · exact Nat.le_antisymm due (Nat.le_of_lt_succ beyond)
  · cases aborted.symm.trans unaborted

/-- A task that takes a step in an aborted run goes on subsiding. -/
theorem Task.subsides (task : Task s st id old new st') (found : s.node? id = some n)
    (named : n.id = id) (aborted : st.level.isAborted = true)
    (subsides : s.Subsides n awaited sent old (sentBy id st.log)) :
    s.Subsides n awaited sent new (sentBy id st'.log) := by
  subst named
  generalize before : sentBy n.id st.log = after at subsides
  have silent (still : ∀ turn, old ≠ .running turn) : sentBy n.id st'.log = after :=
    (task.sentBy_eq (.inr still)).trans before
  cases task with
  | receives first completed => cases subsides
  | disappointed first failed => cases subsides
  | givesUp _ => cases subsides
  | acquires found' permits => cases subsides
  | asks found' asked unaborted =>
    cases found.symm.trans found'
    rw [RunState.log_note, RunState.log_setPhase, RunState.log_recordFor, sentBy_sent, before]
    cases subsides with
    | answered due own => cases aborted.symm.trans (unaborted rfl)
    | finishing below final =>
      cases asked with
      | store => exact .storing below final
  | mute found' asked unaborted =>
    rw [RunState.log_finish, RunState.log_recordFor, before]
    exact .returned subsides.leaves
  | halts _ => exact .returned (before ▸ subsides.leaves)
  | stumbles found' due unmade => exact .returned (before ▸ subsides.leaves)
  | starves spent => cases subsides
  | concludes spent atRoot => exact .returned (before ▸ subsides.leaves)
  | stores spent below =>
    cases subsides with
    | answered due own =>
      rw [RunState.log_setPhase, before]
      exact .finishing below (blockCount_of_over due aborted spent ▸ own)
  | finishes =>
    rw [silent nofun]
    exact .returned subsides.leaves
  | advances =>
    rw [silent nofun]
    cases subsides with
    | executing asked =>
      cases asked with
      | increment due made => exact .answered due rfl
  | saves =>
    rw [silent nofun]
    exact .returned subsides.leaves
  | refused found' =>
    rw [silent nofun]
    exact .returned subsides.leaves
  | signals found' =>
    cases subsides with
    | returned leaves => exact .signalled (before ▸ leaves)
  | joins =>
    rw [silent nofun]
    exact .joined subsides.leaves

/-- The run is aborted, and the task of a node subsides. -/
structure Subsiding (s : Setting) (n : Node) (awaited : Awaited) (sent : List Statement)
    (st : RunState) : Prop where
  aborted : st.level.isAborted = true
  task : ∃ phase, st.phase? n.id = some phase ∧ s.Subsides n awaited sent phase (sentBy n.id st.log)

theorem Subsiding.step (named : ∀ {id n}, s.node? id = some n → n.id = id)
    (found : s.node? n.id = some n) (subsiding : s.Subsiding n awaited sent st) {a : Action}
    (stepped : s.step st a = some st') : s.Subsiding n awaited sent st' := by
  obtain ⟨aborted, phase, there, subsides⟩ := subsiding
  rcases step_cases named stepped with ⟨other, old, new, now, task⟩ | ⟨level, _, rfl⟩ | ⟨_, _, _, rfl⟩
  · constructor
    case aborted => exact task.aborted_mono aborted
    case task =>
      rw [task.phase?_eq]
      split
      · rename_i own
        subst own
        cases there.symm.trans now
        exact ⟨new, rfl, task.subsides found rfl aborted subsides⟩
      · rename_i different
        rw [task.sentBy_eq (.inl different)]
        exact ⟨phase, there, subsides⟩
  · refine ⟨isAborted_raise aborted level, phase, there, ?_⟩
    rw [RunState.raise, RunState.log_note, sentBy_raised]
    exact subsides
  · refine ⟨aborted, phase, there, ?_⟩
    rw [RunState.log_note, RunState.log_note, sentBy_answered, sentBy_sent_none]
    exact subsides

theorem Subsiding.run (named : ∀ {id n}, s.node? id = some n → n.id = id)
    (found : s.node? n.id = some n) (subsiding : s.Subsiding n awaited sent st) {actions : List Action}
    (ran : actions.foldlM s.step st = some st') : s.Subsiding n awaited sent st' := by
  induction actions generalizing st with
  | nil => exact Option.some.inj ran ▸ subsiding
  | cons a rest ih =>
    rw [List.foldlM_cons] at ran
    obtain ⟨next, stepped, more⟩ := Option.bind_eq_some_iff.mp ran
    exact ih (subsiding.step named found stepped) more

/-- In a run of a reachable plan that is aborted while a statement of a node is executing, the node
sends nothing more; except that after the last increment of a progressive node below the root, which is
answered, it goes on to store it. -/
theorem Reached.sent_when_aborted (planned : s.plan.Reachable) (reached : s.Reached st)
    (executing : st.phase? id = some (.asking awaited statement)) (aborted : st.level.isAborted = true)
    {actions : List Action} (ran : actions.foldlM s.step st = some st') :
    sentBy id st'.log = sentBy id st.log
      ∨ ∃ n scramble query, s.node? id = some n ∧ id ≠ s.root ∧ n.kind = .progressive scramble
        ∧ n.query.increment scramble scramble.blockCount = .ok query ∧ statement = .select query
        ∧ sentBy id st'.log = sentBy id st.log ++ [.createTableAs n.scratch query] := by
  obtain ⟨_, _, sound⟩ := planned.sound
  obtain ⟨n, found, _⟩ := reached.prepared sound.paired id _ executing
  obtain ⟨turn, earlier, follows, asked, _⟩ := (reached.sending sound.paired).tasks found executing
  cases sound.named found
  have subsiding : s.Subsiding n awaited (sentBy n.id st.log) st := ⟨aborted, _, executing, .executing asked⟩
  obtain ⟨_, _, _, subsides⟩ := subsiding.run sound.named found ran
  generalize sentBy n.id st'.log = after at subsides
  cases subsides.leaves with
  | nothing => exact .inl rfl
  | @stored scramble query below final =>
    subst final
    cases asked with
    | increment due made =>
      exact .inr ⟨n, scramble, query, found, below, follows.kind, made, rfl, rfl⟩

section Sample

/-- The run is aborted when the progressive dependent awaits its second increment, its last. -/
def busyHalvesAborted : List Action :=
  [.acquire ⟨1⟩, .proceed ⟨1⟩, .answer ⟨1⟩ (.ok ⟨[], []⟩), .proceed ⟨1⟩, .raise .abort]

/-- The increment is answered, and the dependent goes on. -/
def busyHalvesAfterAbort : List Action := [.answer ⟨1⟩ (.ok ⟨[], []⟩), .proceed ⟨1⟩, .proceed ⟨1⟩]

/-- The statement that a task awaits the answer to. -/
private def awaited? (id : NodeId) (st : RunState) : Option Statement :=
  (st.phase? id).bind fun phase => match phase with
    | .asking _ statement => some statement
    | _ => none

private theorem asking_of_awaited? (there : awaited? id st = some statement) :
    ∃ awaited, st.phase? id = some (.asking awaited statement) := by
  obtain ⟨phase, found, read⟩ := Option.bind_eq_some_iff.mp there
  cases phase with
  | asking awaited own =>
    cases read
    exact ⟨awaited, found⟩
  | _ => cases read

/-- The sample run, aborted during the last increment of the dependent, with the number of statements
that the dependent has sent by then and in the end. -/
private theorem busyHalves_aborted : ∃ st st' awaited statement,
    busyHalvesSetting.Reached st ∧ st.phase? ⟨1⟩ = some (.asking awaited statement)
      ∧ st.level.isAborted = true ∧ busyHalvesAfterAbort.foldlM busyHalvesSetting.step st = some st'
      ∧ (sentBy ⟨1⟩ st.log).length = 2 ∧ (sentBy ⟨1⟩ st'.log).length = 3 := by
  have checked : ((busyHalvesAborted.foldlM busyHalvesSetting.step (busyHalvesSetting.initial 1 .none)).any
      fun (st : RunState) => (awaited? ⟨1⟩ st).isSome && st.level.isAborted
        && decide ((sentBy ⟨1⟩ st.log).length = 2)
        && (busyHalvesAfterAbort.foldlM busyHalvesSetting.step st).any
          fun (st' : RunState) => decide ((sentBy ⟨1⟩ st'.log).length = 3)) = true := by
    decide +kernel
  obtain ⟨st, ran, looked⟩ := (Option.any_eq_true _ _).mp checked
  simp only [Bool.and_eq_true] at looked
  obtain ⟨⟨⟨there, aborted⟩, two⟩, further⟩ := looked
  obtain ⟨st', went, three⟩ := (Option.any_eq_true _ _).mp further
  obtain ⟨statement, there⟩ := Option.isSome_iff_exists.mp there
  obtain ⟨awaited, executing⟩ := asking_of_awaited? there
  exact ⟨st, st', awaited, statement, (Reached.start 1 .none).run ran, executing, aborted, went,
    of_decide_eq_true two, of_decide_eq_true three⟩

theorem busyHalves_stores_when_aborted : ∃ st st' n query,
    busyHalvesSetting.node? ⟨1⟩ = some n ∧ st.level.isAborted = true
      ∧ busyHalvesAfterAbort.foldlM busyHalvesSetting.step st = some st'
      ∧ sentBy ⟨1⟩ st'.log = sentBy ⟨1⟩ st.log ++ [.createTableAs n.scratch query] := by
  obtain ⟨st, st', awaited, statement, reached, executing, aborted, went, two, three⟩ := busyHalves_aborted
  rcases Reached.sent_when_aborted (s := busyHalvesSetting) Plan.busyHalvesPlan_reachable reached executing
    aborted went with same | ⟨n, _, query, found, _, _, _, _, more⟩
  · rw [same, two] at three
    cases three
  · exact ⟨st, st', n, query, found, aborted, went, more⟩

/-- A statement of an aborted run is not always the last of its node. -/
theorem not_silent_when_aborted : ¬ ∀ (s : Setting) (st st' : RunState) (id : NodeId) (awaited : Awaited)
    (statement : Statement) (actions : List Action), s.plan.Reachable → s.Reached st →
      st.phase? id = some (.asking awaited statement) → st.level.isAborted = true →
      actions.foldlM s.step st = some st' → sentBy id st'.log = sentBy id st.log := by
  intro silent
  obtain ⟨st, st', awaited, statement, reached, executing, aborted, went, two, three⟩ := busyHalves_aborted
  have same := silent busyHalvesSetting st st' ⟨1⟩ awaited statement busyHalvesAfterAbort
    Plan.busyHalvesPlan_reachable reached executing aborted went
  rw [same, two] at three
  cases three

end Sample

end Setting

end ApproxQuery
