import ApproxQuery.Proofs.Plan.Nodes
import ApproxQuery.Run.Machine

/-! The steps of a run one by one: what a task, a canceller or the clean-up can do to the state. -/
namespace ApproxQuery

namespace RunState

variable (st : RunState) (id other : NodeId)

@[simp] theorem phase?_setPhase (phase : Phase) :
    (st.setPhase id phase).phase? other = if id = other then some phase else st.phase? other :=
  AscendingMap.find?_insert st.phases id other phase

@[simp] theorem log_setPhase (phase : Phase) : (st.setPhase id phase).log = st.log := rfl

@[simp] theorem tokens_setPhase (phase : Phase) : (st.setPhase id phase).tokens = st.tokens := rfl

@[simp] theorem phase?_note (event : Event) : (st.note event).phase? id = st.phase? id := rfl

@[simp] theorem log_note (event : Event) : (st.note event).log = st.log ++ [event] := rfl

@[simp] theorem tokens_note (event : Event) : (st.note event).tokens = st.tokens := rfl

@[simp] theorem phase?_finish (outcome : TaskOutcome) : (st.finish id outcome).phase? other
    = if id = other then some (.returned outcome) else st.phase? other :=
  phase?_setPhase st id other _

@[simp] theorem log_finish (outcome : TaskOutcome) : (st.finish id outcome).log = st.log := rfl

@[simp] theorem tokens_finish (outcome : TaskOutcome) : (st.finish id outcome).tokens = st.tokens := rfl

/-- A statement that writes a table has it recorded. -/
def recordFor : Statement → RunState
  | .createTableAs table _ => st.record table
  | .select _ => st
  | .dropTable _ _ => st

theorem recordFor_eq (statement : Statement) :
    st.recordFor statement = { st with recorded := (st.recordFor statement).recorded } := by
  cases statement with
  | _ => rfl

@[simp] theorem phase?_recordFor (statement : Statement) :
    (st.recordFor statement).phase? id = st.phase? id := by
  rw [recordFor_eq]
  rfl

@[simp] theorem log_recordFor (statement : Statement) : (st.recordFor statement).log = st.log := by
  rw [recordFor_eq]

@[simp] theorem tokens_recordFor (statement : Statement) :
    (st.recordFor statement).tokens = st.tokens := by
  rw [recordFor_eq]

end RunState

/-- Cancellation is looked at before the turn. -/
def Turn.heeds : Turn → Bool
  | .whole => true
  | .increment _ _ _ => true
  | .store _ _ => false

namespace Setting

/-- The statement a turn asks for. -/
inductive Asks (s : Setting) (n : Node) : Turn → Awaited → Statement → Prop
  | answer (atRoot : n.id = s.root) : Asks s n .whole .whole (.select n.query)
  | whole (below : n.id ≠ s.root) : Asks s n .whole .whole (.createTableAs n.scratch n.query)
  | increment {scramble k last query} (due : k ≤ scramble.blockCount)
    (made : n.query.increment scramble k = .ok query) :
    Asks s n (.increment scramble k last) (.increment scramble k query) (.select query)
  | store {query updates} :
    Asks s n (.store query updates) (.store updates) (.createTableAs n.scratch query)

/-- The increments are over before the given one: there are no more blocks, or the run is to stop
short of being aborted. -/
def Over (st : RunState) (scramble : ScrambleMeta) (k : Nat) : Prop :=
  scramble.blockCount < k ∨ 1 < k ∧ st.level.stopsProgressive = true ∧ st.level.isAborted = false

/-- An update is kept when somebody takes updates. -/
def publish (s : Setting) (st : RunState) (update : Update) : RunState :=
  if s.reports then { st with updates := st.updates ++ [update] } else st

theorem publish_eq (s : Setting) (st : RunState) (update : Update) :
    s.publish st update = { st with updates := (s.publish st update).updates } := by
  unfold publish
  split
  · rfl
  · rfl

@[simp] theorem log_publish (s : Setting) (st : RunState) (update : Update) :
    (s.publish st update).log = st.log := by
  rw [publish_eq]

@[simp] theorem level_publish (s : Setting) (st : RunState) (update : Update) :
    (s.publish st update).level = st.level := by
  rw [publish_eq]

/-- What a task can do: from one phase to another, with what becomes of the state. -/
inductive Task (s : Setting) (st : RunState) (id : NodeId) : Phase → Phase → RunState → Prop
  | receives {queue count rest token later}
    (first : (st.tokens.find? queue).getD [] = token :: later) (completed : token.completed = true) :
    Task s st id (.waiting ((queue, count) :: rest))
      (.waiting (if count ≤ 1 then rest else (queue, count - 1) :: rest))
      ({ st with tokens := st.tokens.insert queue later }.setPhase id
        (.waiting (if count ≤ 1 then rest else (queue, count - 1) :: rest)))
  | disappointed {queue count rest token later}
    (first : (st.tokens.find? queue).getD [] = token :: later) (failed : token.completed = false) :
    Task s st id (.waiting ((queue, count) :: rest)) (.returned (.error .cancelled))
      ({ st with tokens := st.tokens.insert queue later }.setPhase id
        (.returned (.error .cancelled)))
  | givesUp {missing} (aborted : st.level.isAborted = true) :
    Task s st id (.waiting missing) (.returned (.error .cancelled))
      (st.setPhase id (.returned (.error .cancelled)))
  | acquires {n} (found : s.node? id = some n) (permits : st.permits ≠ 0) :
    Task s st id (.waiting []) (.running (firstTurn n))
      { st.setPhase id (.running (firstTurn n)) with permits := st.permits - 1 }
  | asks {n turn awaited statement} (found : s.node? id = some n)
    (asked : Asks s n turn awaited statement)
    (unaborted : turn.heeds = true → st.level.isAborted = false)
    (worded : (statement.sql s.dialect).isOk = true) :
    Task s st id (.running turn) (.asking awaited statement)
      (((st.recordFor statement).setPhase id (.asking awaited statement)).note
        (.sent (some id) statement))
  | mute {n turn awaited statement cause} (found : s.node? id = some n)
    (asked : Asks s n turn awaited statement)
    (unaborted : turn.heeds = true → st.level.isAborted = false) :
    Task s st id (.running turn) (.returned (.error (.sql id cause)))
      ((st.recordFor statement).finish id (.error (.sql id cause)))
  | halts {turn} (aborted : st.level.isAborted = true) :
    Task s st id (.running turn) (.returned (.error .cancelled)) (st.finish id (.error .cancelled))
  | stumbles {n scramble k last e} (found : s.node? id = some n) (due : k ≤ scramble.blockCount)
    (unmade : n.query.increment scramble k = .error e) :
    Task s st id (.running (.increment scramble k last))
      (.returned (.error (.planning (.invalid (.increment e)))))
      (st.finish id (.error (.planning (.invalid (.increment e)))))
  | starves {scramble k} (spent : Over st scramble k) :
    Task s st id (.running (.increment scramble k none)) (.returned (.error (.invalid (.noBlocks id))))
      (st.finish id (.error (.invalid (.noBlocks id))))
  | concludes {scramble k query result} (spent : Over st scramble k) (atRoot : id = s.root) :
    Task s st id (.running (.increment scramble k (some (query, result))))
      (.returned (.ok ⟨some result, k - 1⟩)) (st.finish id (.ok ⟨some result, k - 1⟩))
  | stores {scramble k query result} (spent : Over st scramble k) (below : id ≠ s.root) :
    Task s st id (.running (.increment scramble k (some (query, result))))
      (.running (.store query (k - 1))) (st.setPhase id (.running (.store query (k - 1))))
  | finishes {statement result} :
    Task s st id (.asking .whole statement)
      (.returned (.ok ⟨if id = s.root then some result else none, 0⟩))
      ((st.note (.answered (some id) statement true)).finish id
        (.ok ⟨if id = s.root then some result else none, 0⟩))
  | advances {scramble k query statement result} :
    Task s st id (.asking (.increment scramble k query) statement)
      (.running (.increment scramble (k + 1) (some (query, result))))
      ((s.publish (st.note (.answered (some id) statement true))
          ⟨id, k, scramble.blockCount, result⟩).setPhase id
        (.running (.increment scramble (k + 1) (some (query, result)))))
  | saves {updates statement} :
    Task s st id (.asking (.store updates) statement) (.returned (.ok ⟨none, updates⟩))
      ((st.note (.answered (some id) statement true)).finish id (.ok ⟨none, updates⟩))
  | refused {n awaited statement cause} (found : s.node? id = some n) :
    Task s st id (.asking awaited statement) (.returned (.error (.node id n.scratch cause)))
      ((st.note (.answered (some id) statement false)).finish id (.error (.node id n.scratch cause)))
  | signals {n outcome} (found : s.node? id = some n) :
    Task s st id (.returned outcome) (.signalled outcome)
      ((st.post ⟨id, outcome.isOk⟩ n.broadcasts).setPhase id (.signalled outcome))
  | joins {outcome} :
    Task s st id (.signalled outcome) .joined
      (let after := { st.setPhase id .joined with joined := st.joined ++ [(id, outcome)] }
      if outcome.isOk then after else after.raise .abort)

/-- The actions by which a task goes on from a phase. -/
inductive Acts (id : NodeId) : Phase → Action → Prop
  | receive {missing} : Acts id (.waiting missing) (.receive id)
  | giveUp {missing} : Acts id (.waiting missing) (.giveUp id)
  | acquire : Acts id (.waiting []) (.acquire id)
  | proceed {turn} : Acts id (.running turn) (.proceed id)
  | answer {awaited statement} (reply : Except BackendError QueryResult) :
    Acts id (.asking awaited statement) (.answer id reply)
  | signal {outcome} : Acts id (.returned outcome) (.signal id)
  | join {outcome} : Acts id (.signalled outcome) (.join id)

variable {s : Setting} {st st' : RunState}

private theorem task_ask {id : NodeId} {n : Node} (found : s.node? id = some n) (named : n.id = id)
    {turn : Turn} {awaited : Awaited} {statement : Statement} (asks : Asks s n turn awaited statement)
    (unaborted : turn.heeds = true → st.level.isAborted = false) :
    ∃ new, Task s st id (.running turn) new (s.ask (st.recordFor statement) n awaited statement) := by
  subst named
  unfold ask
  cases worded : statement.sql s.dialect with
  | ok text => exact ⟨_, .asks found asks unaborted (worded ▸ rfl)⟩
  | error cause => exact ⟨_, .mute found asks unaborted⟩

private theorem task_conclude {id : NodeId} {n : Node} (named : n.id = id) {scramble : ScrambleMeta}
    {k : Nat} (spent : Over st scramble k) (last : Option (Query × QueryResult)) :
    ∃ new, Task s st id (.running (.increment scramble k last)) new (s.conclude st n (k - 1) last) := by
  subst named
  cases last with
  | none => exact ⟨_, .starves spent⟩
  | some pair =>
    obtain ⟨query, result⟩ := pair
    dsimp only [conclude]
    split
    · rename_i atRoot
      exact ⟨_, .concludes spent atRoot⟩
    · rename_i below
      exact ⟨_, .stores spent below⟩

private theorem task_take {id : NodeId} {n : Node} (found : s.node? id = some n) (named : n.id = id)
    (turn : Turn) : ∃ new, Task s st id (.running turn) new (s.take st n turn) := by
  subst named
  cases turn with
  | whole =>
    dsimp only [take]
    split
    · rename_i aborted
      exact ⟨_, .halts aborted⟩
    · rename_i unaborted
      have going : st.level.isAborted = false := Bool.eq_false_iff.mpr unaborted
      split
      · rename_i atRoot
        exact task_ask found rfl (.answer atRoot) fun _ => going
      · rename_i below
        exact task_ask found rfl (.whole below) fun _ => going
  | increment scramble k last =>
    dsimp only [take]
    split
    · rename_i beyond
      exact task_conclude rfl (.inl beyond) last
    · rename_i within
      have due := Nat.le_of_not_lt within
      split
      · rename_i aborted
        exact ⟨_, .halts aborted⟩
      · rename_i unaborted
        have going : st.level.isAborted = false := Bool.eq_false_iff.mpr unaborted
        split
        · rename_i stopped
          obtain ⟨later, stops⟩ := Bool.and_eq_true_iff.mp stopped
          exact task_conclude rfl (.inr ⟨of_decide_eq_true later, stops, going⟩) last
        · cases made : n.query.increment scramble k with
          | ok query => exact task_ask found rfl (.increment due made) fun _ => going
          | error e => exact ⟨_, .stumbles found due made⟩
  | store query updates =>
    dsimp only [take]
    exact task_ask found rfl .store nofun

private theorem task_goOn {id : NodeId} {n : Node} (named : n.id = id) (awaited : Awaited)
    (statement : Statement) (result : QueryResult) :
    ∃ new, Task s st id (.asking awaited statement) new
      (s.goOn (st.note (.answered (some id) statement true)) n result awaited) := by
  subst named
  cases awaited with
  | whole => exact ⟨_, .finishes⟩
  | increment scramble k query => exact ⟨_, .advances⟩
  | store updates => exact ⟨_, .saves⟩

/-- A step is one of a task, by an action that suits its phase, or it raises the level of cancellation, or
it drops a table. -/
theorem step_acts (named : ∀ {id n}, s.node? id = some n → n.id = id) {a : Action}
    (stepped : s.step st a = some st') :
    (∃ id old new, st.phase? id = some old ∧ Task s st id old new st' ∧ Acts id old a)
      ∨ (∃ level, a = .raise level ∧ st' = st.raise level)
      ∨ ∃ table succeeded, a = .drop succeeded ∧ s.nextDrop? st = some table ∧ st' = { (st.note
            (.sent none (.dropTable table true))).note
            (.answered none (.dropTable table true) succeeded) with
          dropsSent := st.dropsSent + 1
          dropped := st.dropped + if succeeded then 1 else 0 } := by
  cases a with
  | receive id =>
    dsimp only [step] at stepped
    split at stepped
    · rename_i queue count rest waits
      unfold receive at stepped
      split at stepped
      · cases stepped
      · rename_i token later first
        split at stepped
        · rename_i completed
          cases stepped
          exact .inl ⟨id, _, _, waits, .receives first completed, .receive⟩
        · rename_i failed
          cases stepped
          exact .inl ⟨id, _, _, waits, .disappointed first (Bool.eq_false_iff.mpr failed), .receive⟩
    · cases stepped
  | giveUp id =>
    dsimp only [step] at stepped
    split at stepped
    · rename_i missing waits
      split at stepped
      · rename_i aborted
        cases stepped
        exact .inl ⟨id, _, _, waits, .givesUp aborted, .giveUp⟩
      · cases stepped
    · cases stepped
  | acquire id =>
    dsimp only [step] at stepped
    split at stepped
    · rename_i n waits found
      split at stepped
      · cases stepped
      · rename_i permits
        cases stepped
        exact .inl ⟨id, _, _, waits, .acquires found permits, .acquire⟩
    · cases stepped
  | proceed id =>
    dsimp only [step] at stepped
    split at stepped
    · rename_i turn n runs found
      cases Option.some.inj stepped
      obtain ⟨new, task⟩ := task_take found (named found) turn
      exact .inl ⟨id, _, new, runs, task, .proceed⟩
    · cases stepped
  | answer id reply =>
    dsimp only [step] at stepped
    split at stepped
    · rename_i awaited statement n waits found
      split at stepped
      · rename_i result
        cases Option.some.inj stepped
        obtain ⟨new, task⟩ := task_goOn (named found) awaited statement result
        exact .inl ⟨id, _, new, waits, task, .answer _⟩
      · cases stepped
        exact .inl ⟨id, _, _, waits, .refused found, .answer _⟩
    · cases stepped
  | signal id =>
    dsimp only [step] at stepped
    split at stepped
    · rename_i outcome n ended found
      cases stepped
      exact .inl ⟨id, _, _, ended, .signals found, .signal⟩
    · cases stepped
  | join id =>
    dsimp only [step] at stepped
    split at stepped
    · rename_i outcome ended
      cases stepped
      exact .inl ⟨id, _, _, ended, .joins, .join⟩
    · cases stepped
  | raise level => exact .inr (.inl ⟨level, rfl, (Option.some.inj stepped).symm⟩)
  | drop succeeded =>
    dsimp only [step] at stepped
    obtain ⟨table, next, rfl⟩ := Option.map_eq_some_iff.mp stepped
    exact .inr (.inr ⟨table, succeeded, rfl, next, rfl⟩)

/-- A step is one of a task, or it raises the level of cancellation, or it drops a table. -/
theorem step_cases (named : ∀ {id n}, s.node? id = some n → n.id = id) {a : Action}
    (stepped : s.step st a = some st') :
    (∃ id old new, st.phase? id = some old ∧ Task s st id old new st')
      ∨ (∃ level, a = .raise level ∧ st' = st.raise level)
      ∨ ∃ table succeeded, s.nextDrop? st = some table ∧ st' = { (st.note
            (.sent none (.dropTable table true))).note
            (.answered none (.dropTable table true) succeeded) with
          dropsSent := st.dropsSent + 1
          dropped := st.dropped + if succeeded then 1 else 0 } := by
  rcases step_acts named stepped with ⟨id, old, new, now, task, _⟩ | raises | ⟨table, succeeded, _, drops⟩
  · exact .inl ⟨id, old, new, now, task⟩
  · exact .inr (.inl raises)
  · exact .inr (.inr ⟨table, succeeded, drops⟩)

namespace Task

variable {id other : NodeId} {old new : Phase}

/-- A task changes its own phase and no other. -/
theorem phase?_eq (task : Task s st id old new st') :
    st'.phase? other = if id = other then some new else st.phase? other := by
  cases task with
  | joins =>
    dsimp only
    split
    · exact st.phase?_setPhase id other .joined
    · exact st.phase?_setPhase id other .joined
  | advances =>
    rw [publish_eq]
    exact RunState.phase?_setPhase _ id other _
  | asks => simp
  | mute => simp
  | _ => exact RunState.phase?_setPhase _ id other _

/-- A task sends what its turn asks for, if that has a text, or nothing. -/
theorem log_cases (task : Task s st id old new st') :
    st'.log = st.log
      ∨ (∃ n turn awaited statement, s.node? id = some n ∧ old = .running turn
        ∧ Asks s n turn awaited statement ∧ (statement.sql s.dialect).isOk = true
        ∧ st'.log = st.log ++ [.sent (some id) statement])
      ∨ ∃ event, st'.log = st.log ++ [event] ∧ ∀ who statement, event ≠ .sent who statement := by
  cases task with
  | asks found asked _ worded => exact .inr (.inl ⟨_, _, _, _, found, rfl, asked, worded, by simp⟩)
  | mute => exact .inl (by simp)
  | finishes => exact .inr (.inr ⟨_, rfl, nofun⟩)
  | advances =>
    rw [publish_eq]
    exact .inr (.inr ⟨_, rfl, nofun⟩)
  | saves => exact .inr (.inr ⟨_, rfl, nofun⟩)
  | refused => exact .inr (.inr ⟨_, rfl, nofun⟩)
  | joins =>
    dsimp only
    split
    · exact .inl rfl
    · exact .inr (.inr ⟨_, rfl, nofun⟩)
  | _ => exact .inl rfl

/-- What has happened stays in the log. -/
theorem log_prefix (task : Task s st id old new st') : st.log <+: st'.log := by
  rcases task.log_cases with same | ⟨_, _, _, _, _, _, _, _, more⟩ | ⟨_, more, _⟩
  · exact same ▸ List.prefix_refl _
  · exact more ▸ List.prefix_append _ _
  · exact more ▸ List.prefix_append _ _

end Task

end Setting

end ApproxQuery
