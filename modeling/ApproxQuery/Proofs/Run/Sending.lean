import ApproxQuery.Proofs.Run.Turns

/-! What each task has sent. A plain node sends one statement, and a progressive node its increments
in order; below the root the last of them is stored. -/
namespace ApproxQuery

/-- The statements that the task of a node has sent, in order. -/
def sentBy (id : NodeId) (log : List Event) : List Statement :=
  log.filterMap fun event => match event with
    | .sent (some who) statement => if who = id then some statement else none
    | _ => none

section Log

variable {id who : NodeId} {log : List Event}

@[simp] theorem sentBy_sent (statement : Statement) :
    sentBy id (log ++ [.sent (some id) statement]) = sentBy id log ++ [statement] := by
  simp [sentBy]

@[simp] theorem sentBy_sent_none (statement : Statement) :
    sentBy id (log ++ [.sent none statement]) = sentBy id log := by
  simp [sentBy]

@[simp] theorem sentBy_raised (level : CancelLevel) :
    sentBy id (log ++ [.raised level]) = sentBy id log := by
  simp [sentBy]

@[simp] theorem sentBy_answered (who : Option NodeId) (statement : Statement) (succeeded : Bool) :
    sentBy id (log ++ [.answered who statement succeeded]) = sentBy id log := by
  simp [sentBy]

theorem sentBy_of_quiet {event : Event} (quiet : ∀ statement, event ≠ .sent (some id) statement) :
    sentBy id (log ++ [event]) = sentBy id log := by
  cases event with
  | sent who statement =>
    cases who with
    | none => exact sentBy_sent_none statement
    | some own =>
      have other : own ≠ id := fun same => quiet statement (same ▸ rfl)
      simp [sentBy, other]
  | answered who statement succeeded => exact sentBy_answered who statement succeeded
  | raised level => exact sentBy_raised level

end Log

/-- The first increments of a progressive node. -/
structure Node.Increments (n : Node) (scramble : ScrambleMeta) (queries : List Query) : Prop where
  kind : n.kind = .progressive scramble
  within : queries.length ≤ scramble.blockCount
  each : List.Forall₂ (fun k query => n.query.increment scramble k = .ok query)
    (List.range' 1 queries.length) queries

/-- All increments of a progressive node, or fewer if the run was to stop; at least one. -/
structure Node.Through (n : Node) (stops : Bool) (scramble : ScrambleMeta) (queries : List Query)
    (last : Query) : Prop extends n.Increments scramble queries where
  latest : queries.getLast? = some last
  enough : queries.length = scramble.blockCount ∨ stops = true

/-- What a task sends that ends without an error. -/
inductive Node.Sends (n : Node) (root : NodeId) (stops : Bool) : List Statement → Prop
  | answer (plain : n.isProgressive = false) (atRoot : n.id = root) :
    Sends n root stops [.select n.query]
  | table (plain : n.isProgressive = false) (below : n.id ≠ root) :
    Sends n root stops [.createTableAs n.scratch n.query]
  | increments {scramble queries last} (through : n.Through stops scramble queries last)
    (atRoot : n.id = root) : Sends n root stops (queries.map .select)
  | stored {scramble queries last} (through : n.Through stops scramble queries last)
    (below : n.id ≠ root) :
    Sends n root stops (queries.map .select ++ [.createTableAs n.scratch last])

/-- What a task has sent when it takes a turn. -/
inductive Turn.Follows (n : Node) (root : NodeId) (stops : Bool) : Turn → List Statement → Prop
  | whole (plain : n.isProgressive = false) : Follows n root stops .whole []
  | increment {scramble queries last} (made : n.Increments scramble queries)
    (latest : last.map Prod.fst = queries.getLast?) :
    Follows n root stops (.increment scramble (queries.length + 1) last) (queries.map .select)
  | store {scramble queries last} (through : n.Through stops scramble queries last)
    (below : n.id ≠ root) :
    Follows n root stops (.store last queries.length) (queries.map .select)

namespace Node

variable {n : Node} {root : NodeId} {scramble : ScrambleMeta} {queries : List Query} {last : Query}

/-- With one more increment there are so many. -/
theorem Increments.add (made : n.Increments scramble queries)
    (due : queries.length + 1 ≤ scramble.blockCount) {query : Query}
    (next : n.query.increment scramble (queries.length + 1) = .ok query) :
    n.Increments scramble (queries ++ [query]) where
  kind := made.kind
  within := by simpa using due
  each := by
    rw [List.length_append, List.length_singleton, List.range'_concat, Nat.one_mul]
    refine List.rel_append made.each ?_
    rw [Nat.add_comm]
    exact .cons next .nil

theorem Through.mono {stops stops' : Bool} (through : n.Through stops scramble queries last)
    (rises : stops = true → stops' = true) : n.Through stops' scramble queries last where
  toIncrements := through.toIncrements
  latest := through.latest
  enough := through.enough.imp_right rises

theorem Sends.mono {stops stops' : Bool} {sent : List Statement} (sends : n.Sends root stops sent)
    (rises : stops = true → stops' = true) : n.Sends root stops' sent := by
  cases sends with
  | answer plain atRoot => exact .answer plain atRoot
  | table plain below => exact .table plain below
  | increments through atRoot => exact .increments (through.mono rises) atRoot
  | stored through below => exact .stored (through.mono rises) below

end Node

theorem Turn.Follows.mono {n : Node} {root : NodeId} {stops stops' : Bool} {turn : Turn}
    {sent : List Statement} (follows : turn.Follows n root stops sent)
    (rises : stops = true → stops' = true) : turn.Follows n root stops' sent := by
  cases follows with
  | whole plain => exact .whole plain
  | increment made latest => exact .increment made latest
  | store through below => exact .store (through.mono rises) below

/-- Only a progressive node asks for increments. -/
theorem Turn.Follows.kind {n : Node} {root : NodeId} {stops : Bool} {scramble : ScrambleMeta} {k : Nat}
    {last : Option (Query × QueryResult)} {sent : List Statement}
    (follows : (Turn.increment scramble k last).Follows n root stops sent) :
    n.kind = .progressive scramble := by
  cases follows with
  | increment made latest => exact made.kind

/-- With one more increment answered, the next turn follows. -/
theorem Turn.Follows.next {n : Node} {root : NodeId} {stops : Bool} {scramble : ScrambleMeta}
    {queries : List Query} {query : Query} (made : n.Increments scramble queries)
    (due : queries.length + 1 ≤ scramble.blockCount)
    (next : n.query.increment scramble (queries.length + 1) = .ok query) (result : QueryResult) :
    (Turn.increment scramble (queries.length + 1 + 1) (some (query, result))).Follows n root stops
      (queries.map .select ++ [.select query]) := by
  have longer : (Turn.increment scramble ((queries ++ [query]).length + 1) (some (query, result))).Follows
      n root stops ((queries ++ [query]).map .select) :=
    .increment (made.add due next) List.getLast?_concat.symm
  rwa [List.length_append, List.map_append] at longer

namespace Setting

/-- What a task has sent in each phase. -/
def Stands (s : Setting) (n : Node) (stops : Bool) (sent : List Statement) : Phase → Prop
  | .waiting _ => sent = []
  | .running turn => turn.Follows n s.root stops sent
  | .asking awaited statement => ∃ turn before, Turn.Follows n s.root stops turn before
      ∧ Asks s n turn awaited statement ∧ sent = before ++ [statement]
  | .returned outcome => outcome.isOk = true → n.Sends s.root stops sent
  | .signalled outcome => outcome.isOk = true → n.Sends s.root stops sent
  | .joined => True

/-- Every task has sent what its phase says, and what it ended with says it still. -/
structure Sending (s : Setting) (st : RunState) : Prop where
  tasks : ∀ {id n phase}, s.node? id = some n → st.phase? id = some phase →
    s.Stands n st.level.stopsProgressive (sentBy id st.log) phase
  ended : ∀ {id n outcome}, s.node? id = some n → (id, outcome) ∈ st.joined →
    st.phase? id = some .joined
      ∧ (outcome.isOk = true → n.Sends s.root st.level.stopsProgressive (sentBy id st.log))

variable {s : Setting} {st st' : RunState} {id other : NodeId} {n : Node} {old new : Phase}
  {stops stops' : Bool} {sent : List Statement}

theorem Stands.mono {phase : Phase} (stands : s.Stands n stops sent phase)
    (rises : stops = true → stops' = true) : s.Stands n stops' sent phase := by
  cases phase with
  | waiting missing => exact stands
  | running turn => exact Turn.Follows.mono stands rises
  | asking awaited statement =>
    obtain ⟨turn, before, follows, asked, all⟩ := stands
    exact ⟨turn, before, follows.mono rises, asked, all⟩
  | returned outcome => exact fun done => (stands done).mono rises
  | signalled outcome => exact fun done => (stands done).mono rises
  | joined => trivial

private theorem follows_firstTurn (n : Node) (root : NodeId) (stops : Bool) :
    (firstTurn n).Follows n root stops [] := by
  unfold firstTurn
  cases kind : n.kind with
  | projection => exact .whole (by rw [Node.isProgressive, Node.scramble?, kind]; rfl)
  | aggregate => exact .whole (by rw [Node.isProgressive, Node.scramble?, kind]; rfl)
  | progressive scramble =>
    have none : n.Increments scramble [] := ⟨kind, Nat.zero_le _, .nil⟩
    exact .increment none rfl

/-- When the increments are over there is a last one, and there are all of them unless the run is to
stop. -/
private theorem through_of_over {scramble : ScrambleMeta} {queries : List Query} {query : Query}
    (made : n.Increments scramble queries) (latest : queries.getLast? = some query)
    (spent : Over st scramble (queries.length + 1)) :
    n.Through st.level.stopsProgressive scramble queries query where
  toIncrements := made
  latest := latest
  enough := by
    rcases spent with beyond | ⟨_, stops, _⟩
    · exact .inl (Nat.le_antisymm made.within (Nat.le_of_lt_succ beyond))
    · exact .inr stops

/-- A level of cancellation that stops the increments goes on to do so. -/
theorem stopsProgressive_raise {current : CancelLevel} (stops : current.stopsProgressive = true)
    (level : CancelLevel) : (current.raise level).stopsProgressive = true := by
  have rises := current.rank_le_rank_raise level
  unfold CancelLevel.stopsProgressive at stops ⊢
  exact decide_eq_true (Nat.le_trans (of_decide_eq_true stops) rises)

theorem isAborted_raise_abort (current : CancelLevel) : (current.raise .abort).isAborted = true := by
  cases current with
  | _ => rfl

/-- A run that is aborted stays so. -/
theorem isAborted_raise {current : CancelLevel} (aborted : current.isAborted = true)
    (level : CancelLevel) : (current.raise level).isAborted = true := by
  have highest : current = .abort := of_decide_eq_true aborted
  subst highest
  cases level with
  | _ => rfl

namespace Task

theorem level_eq (task : Task s st id old new st') (unjoined : new ≠ .joined) :
    st'.level = st.level := by
  cases task with
  | joins => exact absurd rfl unjoined
  | advances =>
    rw [publish_eq]
    rfl
  | asks =>
    rw [RunState.recordFor_eq]
    rfl
  | mute =>
    rw [RunState.recordFor_eq]
    rfl
  | _ => rfl

/-- A task can only raise the level of cancellation: when it is joined after an error. -/
theorem level_cases (task : Task s st id old new st') :
    st'.level = st.level ∨ st'.level = st.level.raise .abort := by
  by_cases unjoined : new = .joined
  · subst unjoined
    cases task with
    | joins =>
      dsimp only
      split
      · exact .inl rfl
      · exact .inr rfl
  · exact .inl (task.level_eq unjoined)

theorem stops_mono (task : Task s st id old new st') (stops : st.level.stopsProgressive = true) :
    st'.level.stopsProgressive = true := by
  rcases task.level_cases with same | raised
  · exact same ▸ stops
  · exact raised ▸ stopsProgressive_raise stops .abort

theorem aborted_mono (task : Task s st id old new st') (aborted : st.level.isAborted = true) :
    st'.level.isAborted = true := by
  rcases task.level_cases with same | raised
  · exact same ▸ aborted
  · exact raised ▸ isAborted_raise aborted .abort

/-- A task sends when it takes a turn only, and nothing for another. -/
theorem sentBy_eq (task : Task s st id old new st')
    (silent : id ≠ other ∨ ∀ turn, old ≠ .running turn) : sentBy other st'.log = sentBy other st.log := by
  rcases task.log_cases with same | ⟨_, turn, _, statement, _, runs, _, _, more⟩ | ⟨event, more, quiet⟩
  · rw [same]
  · rw [more]
    refine sentBy_of_quiet fun statement' same => ?_
    rcases silent with different | still
    · exact different (Option.some.inj (Event.sent.inj same).1)
    · exact still turn runs
  · rw [more]
    exact sentBy_of_quiet fun statement => quiet _ statement

/-- A task that does something has sent what its new phase says. -/
theorem stands (task : Task s st id old new st') (found : s.node? id = some n) (named : n.id = id)
    (stands : s.Stands n st.level.stopsProgressive (sentBy id st.log) old) :
    s.Stands n st'.level.stopsProgressive (sentBy id st'.log) new := by
  subst named
  generalize before : sentBy n.id st.log = sent at stands
  cases task with
  | receives first completed => exact before.trans stands
  | disappointed first failed => exact nofun
  | givesUp aborted => exact nofun
  | acquires found' permits =>
    cases found.symm.trans found'
    change (firstTurn n).Follows n s.root _ (sentBy n.id st.log)
    rw [before.trans stands]
    exact follows_firstTurn n s.root _
  | @asks _ turn awaited statement found' asked _ =>
    cases found.symm.trans found'
    rw [RunState.recordFor_eq]
    exact ⟨turn, sent, stands, asked, by simp [before]⟩
  | mute found' asked _ => exact nofun
  | halts aborted => exact nofun
  | stumbles found' due unmade => exact nofun
  | starves spent => exact nofun
  | concludes spent atRoot =>
    rw [RunState.log_finish, before]
    cases stands with
    | increment made latest =>
      exact fun _ => .increments (through_of_over made latest.symm spent) atRoot
  | stores spent below =>
    rw [RunState.log_setPhase, before]
    cases stands with
    | increment made latest => exact .store (through_of_over made latest.symm spent) below
  | finishes =>
    obtain ⟨turn, _, follows, asked, rfl⟩ := stands
    rw [RunState.log_finish, RunState.log_note, sentBy_answered, before]
    cases asked with
    | answer atRoot =>
      cases follows with
      | whole plain => exact fun _ => .answer plain atRoot
    | whole below =>
      cases follows with
      | whole plain => exact fun _ => .table plain below
  | advances =>
    obtain ⟨turn, _, follows, asked, rfl⟩ := stands
    cases asked with
    | increment due made =>
      cases follows with
      | @increment _ queries _ early latest =>
        rw [RunState.log_setPhase, log_publish, RunState.log_note, sentBy_answered, before]
        exact .next early due made _
  | saves =>
    obtain ⟨turn, _, follows, asked, rfl⟩ := stands
    rw [RunState.log_finish, RunState.log_note, sentBy_answered, before]
    cases asked with
    | store =>
      cases follows with
      | store through below => exact fun _ => .stored through below
  | refused found' => exact nofun
  | signals found' => exact fun done => before ▸ stands done
  | joins => trivial

/-- A task that has been joined does nothing any more. -/
theorem unjoined (task : Task s st id old new st') : old ≠ .joined := by
  rintro rfl
  cases task

/-- The scheduler takes note of what a task has signalled, and of nothing else. -/
theorem joined_cases (task : Task s st id old new st') :
    new ≠ .joined ∧ st'.joined = st.joined
      ∨ ∃ outcome, old = .signalled outcome ∧ new = .joined
        ∧ st'.joined = st.joined ++ [(id, outcome)] := by
  cases task with
  | joins =>
    refine .inr ⟨_, rfl, rfl, ?_⟩
    dsimp only
    split
    · rfl
    · rfl
  | advances =>
    refine .inl ⟨nofun, ?_⟩
    rw [publish_eq]
    rfl
  | asks =>
    rw [RunState.recordFor_eq]
    exact .inl ⟨nofun, rfl⟩
  | mute =>
    rw [RunState.recordFor_eq]
    exact .inl ⟨nofun, rfl⟩
  | _ => exact .inl ⟨nofun, rfl⟩

end Task

private theorem Sending.keep (sending : s.Sending st) (phases : st'.phases = st.phases)
    (joined : st'.joined = st.joined) (quiet : ∀ id, sentBy id st'.log = sentBy id st.log)
    (rises : st.level.stopsProgressive = true → st'.level.stopsProgressive = true) :
    s.Sending st' := by
  have phase (id) : st'.phase? id = st.phase? id := congrArg (AscendingMap.find? · id) phases
  constructor
  case tasks =>
    intro id n phase' found there
    rw [quiet]
    exact (sending.tasks found (phase id ▸ there)).mono rises
  case ended =>
    intro id n outcome found member
    obtain ⟨there, sends⟩ := sending.ended found (joined ▸ member)
    rw [phase, quiet]
    exact ⟨there, fun done => (sends done).mono rises⟩

private theorem Sending.task (sending : s.Sending st) (named : ∀ {id n}, s.node? id = some n → n.id = id)
    (now : st.phase? id = some old) (task : Task s st id old new st') : s.Sending st' := by
  constructor
  case tasks =>
    intro other n phase found there
    rw [task.phase?_eq] at there
    split at there
    · rename_i same
      subst same
      cases there
      exact task.stands found (named found) (sending.tasks found now)
    · rename_i different
      rw [task.sentBy_eq (.inl different)]
      exact (sending.tasks found there).mono task.stops_mono
  case ended =>
    intro other n outcome found member
    have early (before : (other, outcome) ∈ st.joined) : st'.phase? other = some .joined
        ∧ (outcome.isOk = true → n.Sends s.root st'.level.stopsProgressive (sentBy other st'.log)) := by
      obtain ⟨there, sends⟩ := sending.ended found before
      have different : id ≠ other := by
        rintro rfl
        exact task.unjoined (Option.some.inj (now.symm.trans there))
      rw [task.phase?_eq, if_neg different, task.sentBy_eq (.inl different)]
      exact ⟨there, fun done => (sends done).mono task.stops_mono⟩
    rcases task.joined_cases with ⟨_, same⟩ | ⟨own, rfl, rfl, more⟩
    · exact early (same ▸ member)
    · rw [more] at member
      rcases List.mem_append.mp member with before | last
      · exact early before
      · cases List.mem_singleton.mp last
        rw [task.phase?_eq, if_pos rfl, task.sentBy_eq (.inr nofun)]
        exact ⟨rfl, fun done => (sending.tasks found now done).mono task.stops_mono⟩

/-- In every state of a run each task has sent what its phase says. -/
theorem Reached.sending (paired : s.plan.Paired) (reached : s.Reached st) : s.Sending st := by
  induction reached with
  | start permits level =>
    constructor
    case tasks =>
      intro id n phase found there
      rw [phase?_initial paired, found] at there
      cases there
      rfl
    case ended => exact fun _ member => nomatch member
  | step _ stepped ih =>
    rcases step_cases paired.named stepped with ⟨id, old, new, now, task⟩ | ⟨level, _, rfl⟩ | ⟨_, _, _, rfl⟩
    · exact ih.task paired.named now task
    · exact ih.keep rfl rfl (fun _ => sentBy_raised level) fun stops => stopsProgressive_raise stops level
    · refine ih.keep rfl rfl (fun id => ?_) fun stops => stops
      exact (sentBy_answered _ _ _).trans (sentBy_sent_none _)

end Setting

end ApproxQuery
