import ApproxQuery.Proofs.Run.Verdict

/-! The estimates of a progressive node. Whenever the run is told to stop, the node ends with an increment
that was answered and published; the result of that one is the answer of the root, and its query is what is
stored below the root. -/
namespace ApproxQuery

/-- The result that an action hands to the task of a node. -/
def Action.resultFor? (id : NodeId) : Action → Option QueryResult
  | .answer who (.ok result) => if who = id then some result else none
  | _ => none

/-- The results that the task of a node has got, in order. -/
def resultsFor (id : NodeId) (actions : List Action) : List QueryResult :=
  actions.filterMap (Action.resultFor? id)

@[simp] theorem resultsFor_concat (id : NodeId) (actions : List Action) (a : Action) :
    resultsFor id (actions ++ [a]) = resultsFor id actions ++ (a.resultFor? id).toList := by
  rw [resultsFor, List.filterMap_append, resultsFor]
  cases got : a.resultFor? id with
  | none => simp [got]
  | some result => simp [got]

/-- The updates on one node, in order. -/
def RunState.updatesOn (st : RunState) (id : NodeId) : List Update := st.updates.filter fun u => u.node = id

/-- The updates on the first increments of a node, if somebody takes updates. -/
def Setting.published (s : Setting) (id : NodeId) (total : Nat) (results : List QueryResult) : List Update :=
  if s.reports then results.mapIdx fun k result => ⟨id, k + 1, total, result⟩ else []

/-- At some moment of a run the task of a node was about to begin an increment, and the run was to stop. -/
def Setting.StoppedBefore (s : Setting) (start : RunState) (actions : List Action) (id : NodeId) (k : Nat) :
    Prop :=
  ∃ earlier st scramble last, earlier <+: actions ∧ earlier.foldlM s.step start = some st
    ∧ st.phase? id = some (.running (.increment scramble k last)) ∧ st.level.stopsProgressive = true

namespace Setting

/-- What the task of a progressive node has got and published by the time it ends without an error. -/
structure Estimated (s : Setting) (n : Node) (scramble : ScrambleMeta) (stopped : Nat → Prop)
    (got : List QueryResult) (updates : List Update) (report : Report) (results : List QueryResult) : Prop where
  count : results.length = report.updates
  published : updates = s.published n.id scramble.blockCount results
  /-- It ends before the last increment only when it is stopped. -/
  short : report.updates < scramble.blockCount → stopped (report.updates + 1)
  answer : n.id = s.root → got = results ∧ report.result = results.getLast?
  /-- Below the root it has had its table created after the increments. -/
  stored : n.id ≠ s.root → ∃ last, got = results ++ [last]

/-- What it has got and published when its increments are over and it goes on to store the last. -/
structure Storing (s : Setting) (n : Node) (scramble : ScrambleMeta) (stopped : Nat → Prop)
    (got : List QueryResult) (updates : List Update) (done : Nat) : Prop where
  below : n.id ≠ s.root
  count : got.length = done
  published : updates = s.published n.id scramble.blockCount got
  short : done < scramble.blockCount → stopped (done + 1)

/-- What the task of a progressive node has got and published, by its phase. -/
def Gathers (s : Setting) (n : Node) (scramble : ScrambleMeta) (stopped : Nat → Prop)
    (got : List QueryResult) (updates : List Update) : Phase → Prop
  | .waiting _ => got = [] ∧ updates = []
  | .running .whole => False
  | .running (.increment own k last) => own = scramble ∧ k = got.length + 1
    ∧ last.map Prod.snd = got.getLast? ∧ updates = s.published n.id scramble.blockCount got
  | .running (.store _ done) => s.Storing n scramble stopped got updates done
  | .asking .whole _ => False
  | .asking (.increment own k _) _ => own = scramble ∧ k = got.length + 1
    ∧ updates = s.published n.id scramble.blockCount got
  | .asking (.store done) _ => s.Storing n scramble stopped got updates done
  | .returned outcome => ∀ report, outcome = .ok report →
    ∃ results, s.Estimated n scramble stopped got updates report results
  | .signalled outcome => ∀ report, outcome = .ok report →
    ∃ results, s.Estimated n scramble stopped got updates report results
  | .joined => True

/-- What a progressive node has got and published after some actions agrees with the phase of its task,
and with what the task has reported. -/
structure Gathering (s : Setting) (start : RunState) (actions : List Action) (st : RunState) (n : Node)
    (scramble : ScrambleMeta) : Prop where
  task : ∀ {phase}, st.phase? n.id = some phase →
    s.Gathers n scramble (s.StoppedBefore start actions n.id) (resultsFor n.id actions) (st.updatesOn n.id) phase
  ended : ∀ {report}, (n.id, .ok report) ∈ st.joined → ∃ results, s.Estimated n scramble
    (s.StoppedBefore start actions n.id) (resultsFor n.id actions) (st.updatesOn n.id) report results

variable {s : Setting} {start st st' : RunState} {id other : NodeId} {n : Node} {scramble : ScrambleMeta}
  {old new phase : Phase} {stopped stopped' : Nat → Prop} {got : List QueryResult} {updates : List Update}

section Published

variable {total : Nat} {results : List QueryResult}

@[simp] theorem published_nil : s.published id total [] = [] := by
  unfold published
  split
  · rfl
  · rfl

theorem published_concat (result : QueryResult) : s.published id total (results ++ [result])
    = s.published id total results ++ if s.reports then [⟨id, results.length + 1, total, result⟩] else [] := by
  unfold published
  split
  · exact List.mapIdx_concat
  · rfl

theorem updatesOn_publish {update : Update} (own : update.node = id) : (s.publish st update).updatesOn id
    = st.updatesOn id ++ if s.reports then [update] else [] := by
  unfold publish RunState.updatesOn
  split
  · simp [own]
  · exact (List.append_nil _).symm

theorem updatesOn_publish_of_ne {update : Update} (different : update.node ≠ id) :
    (s.publish st update).updatesOn id = st.updatesOn id := by
  unfold publish RunState.updatesOn
  split
  · simp [different]
  · rfl

end Published

section Mono

variable (rises : ∀ k, stopped k → stopped' k)

include rises

theorem Estimated.mono {report : Report} {results : List QueryResult}
    (estimated : s.Estimated n scramble stopped got updates report results) :
    s.Estimated n scramble stopped' got updates report results :=
  { estimated with short := fun early => rises _ (estimated.short early) }

theorem Storing.mono {done : Nat} (storing : s.Storing n scramble stopped got updates done) :
    s.Storing n scramble stopped' got updates done :=
  { storing with short := fun early => rises _ (storing.short early) }

theorem Gathers.mono (gathers : s.Gathers n scramble stopped got updates phase) :
    s.Gathers n scramble stopped' got updates phase := by
  cases phase with
  | waiting missing => exact gathers
  | running turn =>
    cases turn with
    | whole => exact gathers
    | increment own k last => exact gathers
    | store query done => exact Storing.mono rises gathers
  | asking awaited statement =>
    cases awaited with
    | whole => exact gathers
    | increment own k query => exact gathers
    | store done => exact Storing.mono rises gathers
  | returned outcome => exact fun report ok => (gathers report ok).imp fun _ => Estimated.mono rises
  | signalled outcome => exact fun report ok => (gathers report ok).imp fun _ => Estimated.mono rises
  | joined => trivial

end Mono

/-- Only an answer hands a result to a task, and only to the one that awaits it. -/
theorem Acts.resultFor?_eq_none {a : Action} (acts : Acts id old a)
    (still : id ≠ other ∨ ∀ awaited statement, old ≠ .asking awaited statement) :
    a.resultFor? other = none := by
  cases acts with
  | answer reply =>
    have different : id ≠ other := still.resolve_right fun never => never _ _ rfl
    cases reply with
    | error cause => rfl
    | ok result => exact if_neg different
  | _ => rfl

namespace Task

/-- Only for a task that awaits an answer is an update published. -/
theorem updatesOn_eq (task : Task s st id old new st')
    (still : id ≠ other ∨ ∀ awaited statement, old ≠ .asking awaited statement) :
    st'.updatesOn other = st.updatesOn other := by
  cases task with
  | advances =>
    have different : id ≠ other := still.resolve_right fun never => never _ _ rfl
    exact updatesOn_publish_of_ne different
  | asks =>
    rw [RunState.recordFor_eq]
    rfl
  | mute =>
    rw [RunState.recordFor_eq]
    rfl
  | joins =>
    dsimp only
    split
    · rfl
    · rfl
  | _ => rfl

/-- A task that does not await an answer gets none, and publishes nothing; it closes its increments when
they are all done or the run is to stop. -/
theorem gathers (task : Task s st id old new st') (found : s.node? id = some n) (named : n.id = id)
    (kind : n.kind = .progressive scramble)
    (unasked : ∀ awaited statement, old ≠ .asking awaited statement)
    (halted : ∀ own k last, old = .running (.increment own k last) → st.level.stopsProgressive = true → stopped k)
    (gathers : s.Gathers n scramble stopped got updates old) : s.Gathers n scramble stopped got updates new := by
  subst named
  have short {k last} (now : old = .running (.increment scramble k last)) (spent : Over st scramble k)
      (count : k = got.length + 1) (early : got.length < scramble.blockCount) : stopped (got.length + 1) := by
    subst count
    rcases spent with beyond | ⟨_, stops, _⟩
    · exact absurd early (Nat.not_lt.mpr (Nat.le_of_lt_succ beyond))
    · exact halted _ _ _ now stops
  cases task with
  | receives first completed => exact gathers
  | acquires found' permits =>
    cases found.symm.trans found'
    obtain ⟨rfl, rfl⟩ := gathers
    unfold firstTurn
    rw [kind]
    exact ⟨rfl, rfl, rfl, published_nil.symm⟩
  | asks found' asked _ =>
    cases asked with
    | answer atRoot => exact gathers
    | whole below => exact gathers
    | increment due made =>
      obtain ⟨own, count, _, published⟩ := gathers
      exact ⟨own, count, published⟩
    | store => exact gathers
  | concludes spent atRoot =>
    obtain ⟨rfl, rfl, latest, published⟩ := gathers
    rintro _ ⟨⟩
    exact ⟨got, rfl, published, short rfl spent rfl, fun _ => ⟨rfl, latest⟩, fun below => absurd atRoot below⟩
  | stores spent below =>
    obtain ⟨rfl, rfl, latest, published⟩ := gathers
    exact ⟨below, rfl, published, short rfl spent rfl⟩
  | finishes => exact absurd rfl (unasked _ _)
  | advances => exact absurd rfl (unasked _ _)
  | saves => exact absurd rfl (unasked _ _)
  | refused found' => exact absurd rfl (unasked _ _)
  | signals found' => exact gathers
  | joins => trivial
  | _ => exact nofun

end Task

/-- A task that gets the result it awaits has one more, and publishes that of an increment. -/
theorem gathers_goOn {awaited : Awaited} {statement : Statement} (result : QueryResult)
    (gathers : s.Gathers n scramble stopped got (st.updatesOn n.id) (.asking awaited statement)) :
    ∃ new, (s.goOn st n result awaited).phase? n.id = some new
      ∧ s.Gathers n scramble stopped (got ++ [result]) ((s.goOn st n result awaited).updatesOn n.id) new := by
  cases awaited with
  | whole => exact gathers.elim
  | increment own k query =>
    obtain ⟨rfl, rfl, published⟩ := gathers
    refine ⟨_, (RunState.phase?_setPhase _ _ _ _).trans (if_pos rfl), rfl, ?_, ?_, ?_⟩
    · rw [List.length_append, List.length_singleton]
    · exact List.getLast?_concat.symm
    · rw [published_concat, ← published]
      exact updatesOn_publish rfl
  | store done =>
    obtain ⟨below, count, published, short⟩ := gathers
    refine ⟨_, (RunState.phase?_finish _ _ _ _).trans (if_pos rfl), ?_⟩
    rintro _ ⟨⟩
    exact ⟨got, count, published, short, fun atRoot => absurd atRoot below, fun _ => ⟨result, rfl⟩⟩

/-- The answer to a task that awaits one is a result, with which it goes on, or ends the task. -/
private theorem gathers_answer {awaited : Awaited} {statement : Statement}
    {reply : Except BackendError QueryResult} (found : s.node? n.id = some n)
    (now : st.phase? n.id = some (.asking awaited statement))
    (stepped : s.step st (.answer n.id reply) = some st') (there : st'.phase? n.id = some new)
    (gathers : s.Gathers n scramble stopped got (st.updatesOn n.id) (.asking awaited statement)) :
    s.Gathers n scramble stopped (got ++ (Action.resultFor? n.id (.answer n.id reply)).toList)
      (st'.updatesOn n.id) new := by
  simp only [Setting.step, now, found] at stepped
  cases reply with
  | ok result =>
    cases stepped
    have noted : s.Gathers n scramble _ _ ((st.note (.answered (some n.id) statement true)).updatesOn n.id)
      (.asking awaited statement) := gathers
    obtain ⟨own, same, gathers'⟩ := gathers_goOn result noted
    cases same.symm.trans there
    rw [Action.resultFor?, if_pos rfl]
    exact gathers'
  | error cause =>
    cases stepped
    rw [RunState.phase?_finish, if_pos rfl] at there
    cases there
    intro report same
    cases same

theorem StoppedBefore.concat {actions : List Action} {k : Nat} (a : Action)
    (stopped : s.StoppedBefore start actions id k) : s.StoppedBefore start (actions ++ [a]) id k := by
  obtain ⟨earlier, st, scramble, last, before, ran, there, stops⟩ := stopped
  exact ⟨earlier, st, scramble, last, before.trans (List.prefix_append _ _), ran, there, stops⟩

namespace Gathering

variable {actions : List Action} {a : Action}

/-- A step that is none of the node's task leaves what the task has. -/
private theorem keep (gathering : s.Gathering start actions st n scramble)
    (phase : st'.phase? n.id = st.phase? n.id) (joined : ∀ report, (n.id, .ok report) ∈ st'.joined →
      (n.id, .ok report) ∈ st.joined) (updates : st'.updatesOn n.id = st.updatesOn n.id)
    (none : a.resultFor? n.id = none) : s.Gathering start (actions ++ [a]) st' n scramble := by
  have got : resultsFor n.id (actions ++ [a]) = resultsFor n.id actions := by simp [none]
  constructor
  case task =>
    intro phase' there
    rw [got, updates]
    exact (gathering.task (phase ▸ there)).mono fun _ => StoppedBefore.concat a
  case ended =>
    intro report member
    rw [got, updates]
    exact (gathering.ended (joined report member)).imp fun _ => Estimated.mono fun _ => StoppedBefore.concat a

/-- What a task has been told at its end it has also been told when it is joined. -/
private theorem own (gathering : s.Gathering start actions st n scramble) (sending : s.Sending st)
    (found : s.node? n.id = some n) (now : st.phase? n.id = some old) (task : Task s st n.id old new st')
    (gathers : s.Gathers n scramble (s.StoppedBefore start (actions ++ [a]) n.id)
      (resultsFor n.id (actions ++ [a])) (st'.updatesOn n.id) new)
    (signalled : ∀ outcome, old = .signalled outcome →
      resultsFor n.id (actions ++ [a]) = resultsFor n.id actions ∧ st'.updatesOn n.id = st.updatesOn n.id) :
    s.Gathering start (actions ++ [a]) st' n scramble := by
  constructor
  case task =>
    intro phase there
    rw [task.phase?_eq, if_pos rfl] at there
    cases there
    exact gathers
  case ended =>
    intro report member
    have unjoined : (n.id, .ok report) ∉ st.joined := fun before =>
      task.unjoined (Option.some.inj (now.symm.trans (sending.ended found before).1))
    rcases task.joined_cases with ⟨_, same⟩ | ⟨outcome, rfl, _, more⟩
    · exact absurd (same ▸ member) unjoined
    · rcases List.mem_append.mp (more ▸ member) with before | last
      · exact absurd before unjoined
      · cases List.mem_singleton.mp last
        obtain ⟨got, updates⟩ := signalled _ rfl
        rw [got, updates]
        exact (gathering.task now report rfl).imp fun _ => Estimated.mono fun _ => StoppedBefore.concat a

theorem step (paired : s.plan.Paired) (found : s.node? n.id = some n) (kind : n.kind = .progressive scramble)
    (sending : s.Sending st) (ran : actions.foldlM s.step start = some st)
    (gathering : s.Gathering start actions st n scramble) (stepped : s.step st a = some st') :
    s.Gathering start (actions ++ [a]) st' n scramble := by
  rcases step_acts paired.named stepped with ⟨id, old, new, now, task, acts⟩ | ⟨level, rfl, rfl⟩
    | ⟨_, _, rfl, _, rfl⟩
  · by_cases different : id ≠ n.id
    · refine gathering.keep ?_ (fun report member => ?_) (task.updatesOn_eq (.inl different))
        (acts.resultFor?_eq_none (.inl different))
      · rw [task.phase?_eq, if_neg different]
      · rcases task.joined_cases with ⟨_, same⟩ | ⟨_, _, _, more⟩
        · exact same ▸ member
        · rcases List.mem_append.mp (more ▸ member) with before | last
          · exact before
          · cases List.mem_singleton.mp last
            exact absurd rfl different
    · obtain rfl := not_not.mp different
      have before := (gathering.task now).mono fun _ => StoppedBefore.concat a
      by_cases asks : ∃ awaited statement, old = .asking awaited statement
      · obtain ⟨awaited, statement, rfl⟩ := asks
        refine gathering.own sending found now task ?_ nofun
        cases acts with
        | answer reply =>
          rw [resultsFor_concat]
          exact gathers_answer found now stepped (task.phase?_eq.trans (if_pos rfl)) before
      · have unasked (awaited statement) : old ≠ .asking awaited statement :=
          fun same => asks ⟨awaited, statement, same⟩
        have none := acts.resultFor?_eq_none (.inr unasked : n.id ≠ n.id ∨ _)
        have got : resultsFor n.id (actions ++ [a]) = resultsFor n.id actions := by simp [none]
        have updates := task.updatesOn_eq (.inr unasked : n.id ≠ n.id ∨ _)
        refine gathering.own sending found now task ?_ fun _ _ => ⟨got, updates⟩
        rw [got, updates]
        refine task.gathers found rfl kind unasked (fun own k last same stops => ?_) before
        exact ⟨actions, st, own, last, List.prefix_append _ _, ran, same ▸ now, stops⟩
  · exact gathering.keep rfl (fun _ member => member) rfl rfl
  · exact gathering.keep rfl (fun _ member => member) rfl rfl

end Gathering

/-- A progressive node that ends well sends increments, and below the root stores the last of them. -/
theorem sends_progressive {root : NodeId} {stops : Bool} {sent : List Statement}
    (sends : n.Sends root stops sent) (kind : n.kind = .progressive scramble) :
    ∃ queries last, n.Through stops scramble queries last ∧ n.incrementsIn sent = queries.length
      ∧ (n.id = root → sent = queries.map .select)
      ∧ (n.id ≠ root → sent = queries.map .select ++ [.createTableAs n.scratch last]) := by
  have progressive : n.isProgressive = true := by
    rw [Node.isProgressive, Node.scramble?, kind]
    rfl
  cases sends with
  | answer plain => cases progressive.symm.trans plain
  | table plain => cases progressive.symm.trans plain
  | @increments _ queries last through atRoot =>
    cases through.kind.symm.trans kind
    exact ⟨queries, last, through, through.incrementsIn_eq, fun _ => rfl, fun below => absurd atRoot below⟩
  | @stored _ queries last through below =>
    cases through.kind.symm.trans kind
    refine ⟨queries, last, through, ?_, fun atRoot => absurd atRoot below, fun _ => rfl⟩
    rw [n.incrementsIn_store, through.incrementsIn_eq]

/-- In every run what a progressive node has got and published agrees with the phase of its task. -/
theorem gathering_of_run (paired : s.plan.Paired) (found : s.node? n.id = some n)
    (kind : n.kind = .progressive scramble) {permits : Nat} {level : CancelLevel} {actions : List Action}
    (ran : actions.foldlM s.step (s.initial permits level) = some st) :
    s.Gathering (s.initial permits level) actions st n scramble := by
  induction actions using List.reverseRecOn generalizing st with
  | nil =>
    cases ran
    refine ⟨fun there => ?_, fun member => nomatch member⟩
    rw [phase?_initial paired, found] at there
    cases there
    exact ⟨rfl, rfl⟩
  | append_singleton actions a ih =>
    rw [List.foldlM_append] at ran
    obtain ⟨before, earlier, last⟩ := Option.bind_eq_some_iff.mp ran
    have stepped : s.step before a = some st := by simpa using last
    have reached : s.Reached before := (Reached.start permits level).run earlier
    exact (ih earlier).step paired found kind (reached.sending paired) earlier stepped

/-- In a run of a reachable plan that is never aborted, whenever it is told to stop, a progressive node
sends its first increments in order, all of them unless the run was to stop before the next one began. It
publishes one update on each if updates are taken. At the root the answer is that to the last of them; below
the root the query of the last of them is stored, and nothing else is sent. -/
theorem soft_stop (planned : s.plan.Reachable) (rooted : s.plan.root = some s.root) {permits : Nat}
    {level : CancelLevel} {actions : List Action}
    (ran : actions.foldlM s.step (s.initial permits level) = some st) (finished : st.allJoined = true)
    (unaborted : st.level.isAborted = false) (found : s.node? id = some n)
    (kind : n.kind = .progressive scramble) :
    ∃ m queries results last answer, 1 ≤ m ∧ m ≤ scramble.blockCount
      ∧ (List.range' 1 m).mapM (n.query.increment scramble) = .ok queries ∧ queries.getLast? = some last
      ∧ results.length = m ∧ results.getLast? = some answer
      ∧ (m < scramble.blockCount → s.StoppedBefore (s.initial permits level) actions id (m + 1))
      ∧ st.updatesOn id = s.published id scramble.blockCount results
      ∧ (id = s.root → sentBy id st.log = queries.map .select ∧ resultsFor id actions = results
        ∧ st.verdict s.root = .ok answer)
      ∧ (id ≠ s.root → sentBy id st.log = queries.map .select ++ [.createTableAs n.scratch last]
        ∧ ∃ stored, resultsFor id actions = results ++ [stored]) := by
  obtain ⟨root, rooted', sound⟩ := planned.sound
  cases rooted.symm.trans rooted'
  have reached : s.Reached st := (Reached.start permits level).run ran
  have named : n.id = id := sound.named found
  subst named
  have mine : n.id ∈ st.joined.map Prod.fst :=
    (reached.joined_perm sound.paired finished).mem_iff.mpr (sound.paired.mem_nodeIds.mpr ⟨n, found⟩)
  obtain ⟨⟨_, outcome⟩, member, rfl⟩ := List.mem_map.mp mine
  have fine {other outcome} (joined : (other, outcome) ∈ st.joined) : outcome.isOk = true := by
    refine (reached.ok_or_aborted sound.paired.named joined).resolve_right ?_
    simp [unaborted]
  cases outcome with
  | error e => exact absurd (fine member) nofun
  | ok report =>
    have gathering := gathering_of_run sound.paired found kind ran
    obtain ⟨results, estimated⟩ := gathering.ended member
    obtain ⟨queries, last, through, count, atRoot, below⟩ :=
      sends_progressive (((reached.sending sound.paired).ended found member).2 rfl) kind
    obtain ⟨executed, _, updates⟩ := (reached.executing sound.paired).ended found member report rfl
    rw [executed, count] at updates
    have many : results.length = queries.length := estimated.count.trans updates
    have some : 1 ≤ queries.length := List.length_pos_of_mem (List.mem_of_getLast? through.latest)
    have final := List.getLast?_eq_getLast_of_ne_nil (List.ne_nil_of_length_pos (many ▸ some))
    refine ⟨queries.length, queries, results, last, _, some, through.within, mapM_eq_ok.mpr through.each,
      through.latest, many, final, ?_, estimated.published, fun isRoot => ⟨atRoot isRoot, ?_⟩,
      fun isBelow => ⟨below isBelow, estimated.stored isBelow⟩⟩
    · exact updates ▸ estimated.short
    · have got := (estimated.answer isRoot).1
      refine ⟨got, Account.outcome_eq_ok ((st.account_of _).error.eq_none_iff.mpr fun _ _ => fine) ?_⟩
      obtain ⟨own, joined, answer⟩ := (st.account_of (.some s.root)).answer (congrArg Option.some isRoot) member
      obtain ⟨_, estimated'⟩ := gathering.ended joined
      obtain ⟨got', result⟩ := estimated'.answer isRoot
      exact answer.trans (result.trans (got' ▸ got ▸ final))

section Sample

/-- The sample run is told to stop when the progressive dependent has the answer to its first increment. -/
def busyHalvesStopped : List Action :=
  [.acquire ⟨1⟩, .proceed ⟨1⟩, .answer ⟨1⟩ (.ok ⟨[], []⟩), .raise .stopProgressive, .proceed ⟨1⟩, .proceed ⟨1⟩,
    .answer ⟨1⟩ (.ok ⟨[], []⟩), .signal ⟨1⟩, .join ⟨1⟩]
  ++ [.acquire ⟨2⟩, .proceed ⟨2⟩, .answer ⟨2⟩ (.ok ⟨[], []⟩), .signal ⟨2⟩, .join ⟨2⟩]
  ++ [.receive ⟨0⟩, .receive ⟨0⟩, .acquire ⟨0⟩, .proceed ⟨0⟩, .answer ⟨0⟩ (.ok ⟨[], []⟩), .signal ⟨0⟩,
    .join ⟨0⟩]

/-- The dependent publishes and stores the first of its two increments. -/
theorem busyHalves_soft_stop : ∃ (st : RunState) (n : Node) (scramble : ScrambleMeta) (query : Query),
    busyHalvesSetting.node? ⟨1⟩ = some n ∧ n.kind = .progressive scramble ∧ scramble.blockCount = 2
    ∧ n.query.increment scramble 1 = .ok query
    ∧ sentBy ⟨1⟩ st.log = [.select query, .createTableAs n.scratch query] ∧ (st.updatesOn ⟨1⟩).length = 1
    ∧ busyHalvesSetting.StoppedBefore (busyHalvesSetting.initial 1 .none) busyHalvesStopped ⟨1⟩ 2 := by
  have checked : ((busyHalvesStopped.foldlM busyHalvesSetting.step (busyHalvesSetting.initial 1 .none)).any
      fun (st : RunState) => st.allJoined && !st.level.isAborted
        && decide ((sentBy ⟨1⟩ st.log).length = 2)) = true := by
    decide +kernel
  have halves : ((busyHalvesSetting.node? ⟨1⟩).bind Node.scramble?).any
      fun scramble => decide (scramble.blockCount = 2) := by decide +kernel
  have rooted : busyHalvesSetting.plan.root = some busyHalvesSetting.root := by decide +kernel
  obtain ⟨st, ran, looked⟩ := (Option.any_eq_true _ _).mp checked
  simp only [Bool.and_eq_true, Bool.not_eq_true', decide_eq_true_eq] at looked
  obtain ⟨⟨finished, unaborted⟩, two⟩ := looked
  obtain ⟨scramble, there, blocks⟩ := (Option.any_eq_true _ _).mp halves
  obtain ⟨n, found, progressive⟩ := Option.bind_eq_some_iff.mp there
  have kind : n.kind = .progressive scramble := by
    unfold Node.scramble? at progressive
    split at progressive
    · rename_i own kind
      rw [kind, Option.some.inj progressive]
    · cases progressive
    · cases progressive
  have count := of_decide_eq_true blocks
  obtain ⟨m, queries, results, last, _, _, _, made, latest, many, _, short, published, _, below⟩ :=
    soft_stop (s := busyHalvesSetting) Plan.busyHalvesPlan_reachable rooted ran finished unaborted found kind
  obtain ⟨sent, _⟩ := below (by decide)
  have one : queries.length = 1 := by simpa [sent] using two
  obtain ⟨query, rfl⟩ := List.length_eq_one_iff.mp one
  cases latest
  have each := mapM_eq_ok.mp made
  obtain rfl : m = 1 := by simpa using each.length_eq
  cases each with
  | cons first _ =>
    refine ⟨st, n, scramble, query, found, kind, count, first, sent, ?_, short (count ▸ Nat.lt_add_one 1)⟩
    have taken : busyHalvesSetting.reports = true := rfl
    rw [published, Setting.published, if_pos taken, List.length_mapIdx, many]

end Sample

end Setting

end ApproxQuery
