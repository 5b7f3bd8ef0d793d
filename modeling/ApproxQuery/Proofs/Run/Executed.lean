import ApproxQuery.Proofs.Run.Outcome

/-! What the backend has executed for each task. A task sends nothing before it has the answer to what it
sent last. So one that ends without an error has had all its statements executed, and it reports what was
executed. -/
namespace ApproxQuery

/-- The statements of a task that the backend has executed, in order. -/
def executedBy (id : NodeId) (log : List Event) : List Statement :=
  log.filterMap fun event => match event with
    | .answered (some who) statement true => if who = id then some statement else none
    | _ => none

section Log

variable {id : NodeId} {log : List Event}

@[simp] theorem executedBy_sent (who : Option NodeId) (statement : Statement) :
    executedBy id (log ++ [.sent who statement]) = executedBy id log := by
  simp [executedBy]

@[simp] theorem executedBy_raised (level : CancelLevel) :
    executedBy id (log ++ [.raised level]) = executedBy id log := by
  simp [executedBy]

@[simp] theorem executedBy_answered (statement : Statement) :
    executedBy id (log ++ [.answered (some id) statement true]) = executedBy id log ++ [statement] := by
  simp [executedBy]

@[simp] theorem executedBy_refused (who : Option NodeId) (statement : Statement) :
    executedBy id (log ++ [.answered who statement false]) = executedBy id log := by
  simp [executedBy]

theorem executedBy_of_other {who : Option NodeId} (other : who ≠ some id) (statement : Statement)
    (succeeded : Bool) : executedBy id (log ++ [.answered who statement succeeded]) = executedBy id log := by
  cases who with
  | none => simp [executedBy]
  | some own =>
    have different : own ≠ id := fun same => other (same ▸ rfl)
    cases succeeded with
    | _ => simp [executedBy, different]

end Log

def Statement.isSelect : Statement → Bool
  | .select _ => true
  | .createTableAs _ _ => false
  | .dropTable _ _ => false

/-- How many of some statements of a node are increments: the SELECTs, if the node is progressive. -/
def Node.incrementsIn (n : Node) (statements : List Statement) : Nat :=
  if n.isProgressive then statements.countP Statement.isSelect else 0

/-- A task that ends without an error has had executed what it sent. It has an answer if it is that of the
root, and reports how many increments it had answered. -/
def Node.Tells (n : Node) (root : NodeId) (sent executed : List Statement) (outcome : TaskOutcome) : Prop :=
  ∀ report, outcome = .ok report → executed = sent ∧ report.result.isSome = decide (n.id = root)
    ∧ report.updates = n.incrementsIn executed

/-- All that has been sent are increments. -/
theorem Node.Increments.incrementsIn_eq {n : Node} {scramble : ScrambleMeta} {queries : List Query}
    (made : n.Increments scramble queries) : n.incrementsIn (queries.map .select) = queries.length := by
  have progressive : n.isProgressive = true := by rw [isProgressive, scramble?, made.kind]; rfl
  have all : (queries.map Statement.select).countP Statement.isSelect = (queries.map Statement.select).length :=
    List.countP_eq_length.mpr fun statement member => by
      obtain ⟨query, _, rfl⟩ := List.mem_map.mp member
      rfl
  rw [incrementsIn, if_pos progressive, all, List.length_map]

/-- What comes last is no increment. -/
theorem Node.incrementsIn_store (n : Node) (statements : List Statement) (query : Query) :
    n.incrementsIn (statements ++ [.createTableAs n.scratch query]) = n.incrementsIn statements := by
  unfold incrementsIn
  rw [List.countP_append]
  rfl

theorem Node.incrementsIn_plain {n : Node} (plain : n.isProgressive = false) (statements : List Statement) :
    n.incrementsIn statements = 0 := by
  rw [incrementsIn, plain, if_neg Bool.false_ne_true]

namespace Setting

/-- What has been executed of what a task has sent, by its phase: all but a statement that it awaits the
answer to. -/
def Executes (s : Setting) (n : Node) (sent executed : List Statement) : Phase → Prop
  | .waiting _ => executed = sent
  | .running _ => executed = sent
  | .asking _ statement => sent = executed ++ [statement]
  | .returned outcome => n.Tells s.root sent executed outcome
  | .signalled outcome => n.Tells s.root sent executed outcome
  | .joined => True

/-- What has been executed for each task agrees with its phase, and with what it has reported. -/
structure Executing (s : Setting) (st : RunState) : Prop where
  tasks : ∀ {id n phase}, s.node? id = some n → st.phase? id = some phase →
    s.Executes n (sentBy id st.log) (executedBy id st.log) phase
  ended : ∀ {id n outcome}, s.node? id = some n → (id, outcome) ∈ st.joined →
    n.Tells s.root (sentBy id st.log) (executedBy id st.log) outcome

variable {s : Setting} {st st' : RunState} {id other : NodeId} {n : Node} {old new : Phase}

namespace Task

/-- Only for a task that awaits an answer is something executed. -/
theorem executedBy_eq (task : Task s st id old new st')
    (still : id ≠ other ∨ ∀ awaited statement, old ≠ .asking awaited statement) :
    executedBy other st'.log = executedBy other st.log := by
  have another {awaited statement} (asks : old = .asking awaited statement) : some id ≠ some other := by
    rintro ⟨⟩
    exact still.elim (fun different => different rfl) fun never => never awaited statement asks
  cases task with
  | asks => simp
  | mute => simp
  | finishes => exact executedBy_of_other (another rfl) _ _
  | advances =>
    rw [RunState.log_setPhase, log_publish]
    exact executedBy_of_other (another rfl) _ _
  | saves => exact executedBy_of_other (another rfl) _ _
  | refused => exact executedBy_refused _ _
  | joins =>
    dsimp only
    split
    · rfl
    · exact executedBy_raised _
  | _ => rfl

/-- After a task has done something, what has been executed agrees with its new phase. -/
theorem executes (task : Task s st id old new st') (found : s.node? id = some n) (named : n.id = id)
    {stops : Bool} (stands : s.Stands n stops (sentBy id st.log) old)
    (executes : s.Executes n (sentBy id st.log) (executedBy id st.log) old) :
    s.Executes n (sentBy id st'.log) (executedBy id st'.log) new := by
  subst named
  generalize before : sentBy n.id st.log = sent at stands executes
  have silent (still : ∀ turn, old ≠ .running turn) : sentBy n.id st'.log = sent :=
    (task.sentBy_eq (.inr still)).trans before
  have quiet (still : ∀ awaited statement, old ≠ .asking awaited statement) :
      executedBy n.id st'.log = executedBy n.id st.log := task.executedBy_eq (.inr still)
  cases task with
  | receives first completed => exact Eq.trans (quiet nofun) (executes.trans (silent nofun).symm)
  | acquires found' permits => exact Eq.trans (quiet nofun) (executes.trans (silent nofun).symm)
  | asks found' asked _ =>
    change sentBy n.id _ = executedBy n.id _ ++ [_]
    rw [quiet nofun, RunState.log_note, RunState.log_setPhase, RunState.log_recordFor, sentBy_sent, before]
    exact congrArg (· ++ _) (Eq.symm executes)
  | concludes spent atRoot =>
    rw [quiet nofun, RunState.log_finish, before]
    cases stands with
    | increment made latest =>
      rintro _ ⟨⟩
      exact ⟨executes, by simp [atRoot], by rw [executes, made.incrementsIn_eq]; rfl⟩
  | stores spent below =>
    change executedBy n.id _ = sentBy n.id _
    rw [quiet nofun, RunState.log_setPhase, before]
    exact executes
  | finishes =>
    rw [silent nofun, RunState.log_finish, RunState.log_note, executedBy_answered]
    obtain ⟨turn, earlier, follows, asked, _⟩ := stands
    have plain : n.isProgressive = false := by
      cases asked with
      | _ =>
        cases follows with
        | whole plain => exact plain
    rintro _ ⟨⟩
    refine ⟨executes.symm, ?_, (n.incrementsIn_plain plain _).symm⟩
    by_cases atRoot : n.id = s.root
    · simp [atRoot]
    · simp [atRoot]
  | advances =>
    change executedBy n.id _ = sentBy n.id _
    rw [silent nofun, RunState.log_setPhase, log_publish, RunState.log_note, executedBy_answered]
    exact executes.symm
  | saves =>
    rw [silent nofun, RunState.log_finish, RunState.log_note, executedBy_answered]
    obtain ⟨turn, earlier, follows, asked, all⟩ := stands
    rintro _ ⟨⟩
    refine ⟨executes.symm, ?_⟩
    rw [← executes, all]
    cases asked with
    | store =>
      cases follows with
      | store through below =>
        refine ⟨by simp [below], ?_⟩
        rw [n.incrementsIn_store, through.incrementsIn_eq]
  | signals found' => rw [silent nofun, quiet nofun]; exact executes
  | joins => trivial
  | _ => exact nofun

end Task

private theorem Executing.keep (executing : s.Executing st) (phases : st'.phases = st.phases)
    (joined : st'.joined = st.joined) (silent : ∀ id, sentBy id st'.log = sentBy id st.log)
    (quiet : ∀ id, executedBy id st'.log = executedBy id st.log) : s.Executing st' := by
  have phase (id) : st'.phase? id = st.phase? id := congrArg (AscendingMap.find? · id) phases
  constructor
  case tasks =>
    intro id n phase' found there
    rw [silent, quiet]
    exact executing.tasks found (phase id ▸ there)
  case ended =>
    intro id n outcome found member
    rw [silent, quiet]
    exact executing.ended found (joined ▸ member)

private theorem Executing.task (executing : s.Executing st) (sending : s.Sending st)
    (named : ∀ {id n}, s.node? id = some n → n.id = id) (now : st.phase? id = some old)
    (task : Task s st id old new st') : s.Executing st' := by
  constructor
  case tasks =>
    intro other n phase found there
    rw [task.phase?_eq] at there
    split at there
    · rename_i same
      subst same
      cases there
      exact task.executes found (named found) (sending.tasks found now) (executing.tasks found now)
    · rename_i different
      rw [task.sentBy_eq (.inl different), task.executedBy_eq (.inl different)]
      exact executing.tasks found there
  case ended =>
    intro other n outcome found member
    rcases task.joined_cases with ⟨_, same⟩ | ⟨own, rfl, rfl, more⟩
    · rw [same] at member
      have different : id ≠ other := by
        rintro rfl
        exact task.unjoined (Option.some.inj (now.symm.trans (sending.ended found member).1))
      rw [task.sentBy_eq (.inl different), task.executedBy_eq (.inl different)]
      exact executing.ended found member
    · rw [task.sentBy_eq (.inr nofun), task.executedBy_eq (.inr nofun)]
      rcases List.mem_append.mp (more ▸ member) with before | last
      · exact executing.ended found before
      · cases List.mem_singleton.mp last
        exact executing.tasks found now

/-- In every state of a run, what has been executed agrees with the phases of the tasks. -/
theorem Reached.executing (paired : s.plan.Paired) (reached : s.Reached st) : s.Executing st := by
  induction reached with
  | start permits level =>
    constructor
    case tasks =>
      intro id n phase found there
      rw [phase?_initial paired, found] at there
      cases there
      rfl
    case ended => exact fun _ member => nomatch member
  | step before stepped ih =>
    rcases step_cases paired.named stepped with ⟨id, old, new, now, task⟩ | ⟨level, _, rfl⟩ | ⟨_, _, _, rfl⟩
    · exact ih.task (before.sending paired) paired.named now task
    · exact ih.keep rfl rfl (fun _ => sentBy_raised level) fun _ => executedBy_raised level
    · refine ih.keep rfl rfl (fun _ => ?_) fun id => ?_
      · exact (sentBy_answered _ _ _).trans (sentBy_sent_none _)
      · have nobody : none ≠ some id := nofun
        exact (executedBy_of_other nobody _ _).trans (executedBy_sent _ _)

end Setting

end ApproxQuery
