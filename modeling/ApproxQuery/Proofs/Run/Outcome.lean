import ApproxQuery.Proofs.Answers
import ApproxQuery.Proofs.Plan.Rewrites
import ApproxQuery.Proofs.Run.Account
import ApproxQuery.Proofs.Run.Progress
import ApproxQuery.Proofs.Run.Reads
import ApproxQuery.Proofs.Run.Sending
import ApproxQuery.Run.Engine

/-! What a run has done when it is over. Unless a statement fails or somebody cancels, nothing stops a
task, and each has sent all that is its own. -/
namespace ApproxQuery

/-- A task has ended because there is no text for its statement. -/
def hasNoText : TaskOutcome → Bool
  | .error (.sql _ _) => true
  | _ => false

/-- The backend has refused a statement of some task. -/
def Event.isRefusal : Event → Bool
  | .answered (some _) _ succeeded => !succeeded
  | _ => false

/-- What a task has ended with and not yet handed over. -/
def Phase.outcome? : Phase → Option TaskOutcome
  | .returned outcome => some outcome
  | .signalled outcome => some outcome
  | _ => none

theorem RunState.mem_tokensOn_post {st : RunState} {token token' : Token} {queues : List QueueId}
    {queue : QueueId} (member : token' ∈ (st.post token queues).tokensOn queue) :
    token' ∈ st.tokensOn queue ∨ token' = token := by
  unfold tokensOn post at member
  induction queues generalizing st with
  | nil => exact .inl member
  | cons first rest ih =>
    rcases @ih { st with tokens := st.tokens.append first [token] } member with early | own
    · rw [tokensOn, AscendingMap.find?_append] at early
      split at early
      · rename_i same
        subst same
        rcases List.mem_append.mp early with before | new
        · exact .inl before
        · exact .inr (List.mem_singleton.mp new)
      · exact .inl early
    · exact .inr own

/-- All that the task of a node has to send: one statement, or all increments in order, of which below
the root the last is stored. -/
def Node.work (n : Node) (root : NodeId) : Except IncrementError (List Statement) :=
  match n.scramble? with
  | none => .ok [if n.id = root then .select n.query else .createTableAs n.scratch n.query]
  | some scramble =>
    ((List.range' 1 scramble.blockCount).mapM (n.query.increment scramble)).map fun queries =>
      queries.map .select ++ if n.id = root then [] else [.createTableAs n.scratch n.query]

/-- All increments have been made, and the last of them is the query itself. -/
theorem Node.Through.complete {n : Node} {scramble : ScrambleMeta} {queries : List Query} {last : Query}
    (through : n.Through false scramble queries last) (covered : scramble.Covered) :
    (List.range' 1 scramble.blockCount).mapM (n.query.increment scramble) = .ok queries
      ∧ last = n.query := by
  have all : queries.length = scramble.blockCount := through.enough.resolve_right nofun
  have each := through.each
  rw [all] at each
  refine ⟨mapM_eq_ok.mpr each, ?_⟩
  have some := covered.1
  have inRange : scramble.blockCount - 1 < (List.range' 1 scramble.blockCount).length := by
    rw [List.length_range']
    exact Nat.sub_one_lt_of_lt some
  have inList : scramble.blockCount - 1 < queries.length := by
    rw [all]
    exact Nat.sub_one_lt_of_lt some
  have here := each.get inRange inList
  rw [List.get_eq_getElem, List.get_eq_getElem, List.getElem_range', Nat.one_mul,
    Nat.add_sub_cancel' some, Query.increment_blockCount covered] at here
  have latest := through.latest
  rw [List.getLast?_eq_getElem?, all, List.getElem?_eq_getElem inList] at latest
  exact (Option.some.inj latest).symm.trans (Except.ok.inj here).symm

/-- A task that nothing stops sends all that it has to. -/
theorem Node.Sends.work_eq {n : Node} {root : NodeId} {sent : List Statement}
    (sends : n.Sends root false sent)
    (covered : ∀ {scramble}, n.kind = .progressive scramble → scramble.Covered) :
    n.work root = .ok sent := by
  cases sends with
  | answer plain atRoot =>
    have none : n.scramble? = none := by simpa [isProgressive] using plain
    simp [work, none, atRoot]
  | table plain below =>
    have none : n.scramble? = none := by simpa [isProgressive] using plain
    simp [work, none, below]
  | increments through atRoot =>
    obtain ⟨made, _⟩ := through.complete (covered through.kind)
    simp [work, scramble?, through.kind, made, atRoot, Except.map]
  | stored through below =>
    obtain ⟨made, rfl⟩ := through.complete (covered through.kind)
    simp [work, scramble?, through.kind, made, below, Except.map]

namespace Setting

variable {s : Setting} {st st' : RunState} {id : NodeId} {n : Node} {old new : Phase}

/-- The states of a run that nobody cancels from outside. -/
inductive Undisturbed (s : Setting) : RunState → Prop
  | start (permits : Nat) : Undisturbed s (s.initial permits .none)
  | step {st st' : RunState} {a : Action} (before : Undisturbed s st)
    (quiet : ∀ level, a ≠ .raise level) (stepped : s.step st a = some st') : Undisturbed s st'

theorem Undisturbed.reached (undisturbed : s.Undisturbed st) : s.Reached st := by
  induction undisturbed with
  | start permits => exact .start permits .none
  | step _ _ stepped ih => exact ih.step stepped

theorem Undisturbed.run {actions : List Action} (undisturbed : s.Undisturbed st)
    (quiet : ∀ a ∈ actions, ∀ level, a ≠ .raise level)
    (ran : actions.foldlM s.step st = some st') : s.Undisturbed st' := by
  induction actions generalizing st with
  | nil => exact Option.some.inj ran ▸ undisturbed
  | cons a rest ih =>
    rw [List.foldlM_cons] at ran
    obtain ⟨next, stepped, more⟩ := Option.bind_eq_some_iff.mp ran
    obtain ⟨first, later⟩ := List.forall_mem_cons.mp quiet
    exact ih (undisturbed.step first stepped) later more

section Joining

/-- The scheduler has taken note of each task that has been joined, once. -/
structure Joining (st : RunState) : Prop where
  distinct : (st.joined.map Prod.fst).Nodup
  exactly : ∀ id, id ∈ st.joined.map Prod.fst ↔ st.phase? id = some .joined

private theorem Joining.task (joining : Joining st) (now : st.phase? id = some old)
    (task : Task s st id old new st') : Joining st' := by
  have unnoted : id ∉ st.joined.map Prod.fst := fun member =>
    task.unjoined (Option.some.inj (now.symm.trans ((joining.exactly id).mp member)))
  rcases task.joined_cases with ⟨still, same⟩ | ⟨outcome, _, rfl, more⟩
  · refine ⟨same ▸ joining.distinct, fun other => ?_⟩
    rw [same, task.phase?_eq]
    split
    · rename_i own
      subst own
      exact ⟨fun member => absurd member unnoted, fun joined => absurd (Option.some.inj joined) still⟩
    · exact joining.exactly other
  · refine ⟨?_, fun other => ?_⟩
    · rw [more, List.map_append]
      refine List.nodup_append.mpr ⟨joining.distinct, List.nodup_singleton _, ?_⟩
      intro early inJoined late own same
      have named : late = id := List.mem_singleton.mp own
      exact unnoted (named ▸ same ▸ inJoined)
    · rw [more, List.map_append, List.mem_append, joining.exactly, task.phase?_eq]
      by_cases own : id = other
      · simp [own]
      · simp [own, Ne.symm own]

private theorem Reached.joining (paired : s.plan.Paired) (reached : s.Reached st) : Joining st := by
  induction reached with
  | start permits level =>
    refine ⟨List.nodup_nil, fun id => ⟨(fun member => nomatch member), fun joined => ?_⟩⟩
    rw [phase?_initial paired] at joined
    obtain ⟨n, _, waits⟩ := Option.map_eq_some_iff.mp joined
    cases waits
  | step _ stepped ih =>
    rcases step_cases paired.named stepped with ⟨id, old, new, now, task⟩ | ⟨level, _, rfl⟩ | ⟨_, _, _, rfl⟩
    · exact ih.task now task
    · exact ⟨ih.distinct, ih.exactly⟩
    · exact ⟨ih.distinct, ih.exactly⟩

/-- When all tasks have been joined, the scheduler has taken note of every node once. -/
theorem Reached.joined_perm (paired : s.plan.Paired) (reached : s.Reached st)
    (finished : st.allJoined = true) : (st.joined.map Prod.fst).Perm s.plan.nodeIds := by
  have joining := reached.joining paired
  refine (List.perm_ext_iff_of_nodup joining.distinct paired.ordered.nodup_keys).mpr fun id => ?_
  refine (joining.exactly id).trans (Iff.trans ?_ paired.mem_nodeIds.symm)
  constructor
  · intro joined
    obtain ⟨n, found, _⟩ := reached.prepared paired id _ joined
    exact ⟨n, found⟩
  · rintro ⟨n, found⟩
    obtain ⟨phase, there⟩ := reached.live paired found
    exact joined_of_allJoined finished there ▸ there

theorem Reached.joined_length (paired : s.plan.Paired) (reached : s.Reached st)
    (finished : st.allJoined = true) : st.joined.length = s.plan.size := by
  have count := (reached.joined_perm paired finished).length_eq
  rw [List.length_map] at count
  exact count.trans (List.length_map Prod.fst)

end Joining

section Clean

/-- A statement has failed: the backend has refused it, or there is no text for it. -/
def Faulty (st : RunState) : Prop :=
  (∃ event ∈ st.log, event.isRefusal = true) ∨ ∃ id outcome, hasNoText outcome = true
    ∧ ((st.phase? id).bind Phase.outcome? = some outcome ∨ (id, outcome) ∈ st.joined)

/-- So far no task has met anything that stops it. -/
structure Clean (st : RunState) : Prop where
  level : st.level = .none
  completed : ∀ {queue token}, token ∈ st.tokensOn queue → token.completed = true
  ended : ∀ {id phase outcome}, st.phase? id = some phase → phase.outcome? = some outcome →
    outcome.isOk = true
  joined : ∀ {id outcome}, (id, outcome) ∈ st.joined → outcome.isOk = true

namespace Task

variable {outcome : TaskOutcome}

private theorem outcome_kept (task : Task s st id old new st') (ended : old.outcome? = some outcome)
    (unjoined : new ≠ .joined) : new.outcome? = some outcome := by
  cases task with
  | signals found => exact ended
  | joins => exact absurd rfl unjoined
  | _ => cases ended

/-- Where nothing has gone wrong, what a task newly ends with is no error but that of a statement. -/
private theorem outcome_new (task : Task s st id old new st') (clean : Clean st)
    (found : s.node? id = some n) (stands : s.Stands n st.level.stopsProgressive (sentBy id st.log) old)
    (covered : ∀ {scramble}, n.kind = .progressive scramble → scramble.Covered)
    (ended : new.outcome? = some outcome) :
    old.outcome? = some outcome ∨ outcome.isOk = true ∨ hasNoText outcome = true
      ∨ ∃ event ∈ st'.log, event.isRefusal = true := by
  have going : st.level.isAborted = false := by rw [clean.level]; rfl
  generalize sentBy id st.log = sent at stands
  cases task with
  | disappointed first failed =>
    have completed := clean.completed (first ▸ List.mem_cons_self)
    cases failed.symm.trans completed
  | givesUp aborted => cases going.symm.trans aborted
  | halts aborted => cases going.symm.trans aborted
  | stumbles found' due unmade =>
    cases found.symm.trans found'
    cases stands with
    | increment made latest =>
      obtain ⟨query, next⟩ := Query.increment_ok (covered made.kind) (Nat.succ_pos _) due n.query
      cases unmade.symm.trans next
  | starves spent =>
    cases stands with
    | increment made latest =>
      obtain rfl := List.getLast?_eq_none_iff.mp latest.symm
      rcases spent with beyond | ⟨later, _⟩
      · exact absurd (covered made.kind).1 (Nat.not_lt.mpr (Nat.le_of_lt_succ beyond))
      · exact absurd later (Nat.lt_irrefl 1)
  | mute found' asked _ =>
    cases ended
    exact .inr (.inr (.inl rfl))
  | refused found' => exact .inr (.inr (.inr ⟨_, List.mem_append_right _ List.mem_cons_self, rfl⟩))
  | concludes spent atRoot =>
    cases ended
    exact .inr (.inl rfl)
  | finishes =>
    cases ended
    exact .inr (.inl rfl)
  | saves =>
    cases ended
    exact .inr (.inl rfl)
  | signals found' => exact .inl ended
  | _ => cases ended

end Task

private theorem Faulty.task (faulty : Faulty st) (now : st.phase? id = some old)
    (task : Task s st id old new st') : Faulty st' := by
  rcases faulty with ⟨event, member, refusal⟩ | ⟨other, outcome, mute, held | noted⟩
  · exact .inl ⟨event, task.log_prefix.subset member, refusal⟩
  · by_cases own : id = other
    · subst own
      rw [now, Option.bind_some] at held
      rcases task.joined_cases with ⟨unjoined, _⟩ | ⟨signalled, rfl, _, more⟩
      · refine .inr ⟨id, outcome, mute, .inl ?_⟩
        rw [task.phase?_eq, if_pos rfl]
        exact task.outcome_kept held unjoined
      · cases held
        exact .inr ⟨id, _, mute, .inr (more ▸ List.mem_append_right _ List.mem_cons_self)⟩
    · refine .inr ⟨other, outcome, mute, .inl ?_⟩
      rwa [task.phase?_eq, if_neg own]
  · refine .inr ⟨other, outcome, mute, .inr ?_⟩
    rcases task.joined_cases with ⟨_, same⟩ | ⟨_, _, _, more⟩
    · exact same ▸ noted
    · exact more ▸ List.mem_append_left _ noted

private theorem Clean.task (clean : Clean st) (sending : s.Sending st) (found : s.node? id = some n)
    (covered : ∀ {scramble}, n.kind = .progressive scramble → scramble.Covered)
    (now : st.phase? id = some old) (task : Task s st id old new st') (faultless : ¬ Faulty st') :
    Clean st' := by
  constructor
  case level =>
    by_cases joins : new = .joined
    · subst joins
      cases task with
      | joins =>
        have done := clean.ended now rfl
        dsimp only
        rw [if_pos done]
        exact clean.level
    · exact (task.level_eq joins).trans clean.level
  case completed =>
    intro queue token member
    rcases task.tokensOn_cases with ⟨same, _⟩ | ⟨own, _, _, first, later, _, tokens, after, _⟩
      | ⟨m, outcome, _, rfl, _, after⟩
    · exact clean.completed (same queue ▸ member)
    · rw [after] at member
      split at member
      · exact clean.completed (tokens ▸ List.mem_cons_of_mem first member)
      · exact clean.completed member
    · rw [after] at member
      rcases RunState.mem_tokensOn_post member with early | rfl
      · exact clean.completed early
      · exact clean.ended now rfl
  case ended =>
    intro other phase outcome there ended
    rw [task.phase?_eq] at there
    split at there
    · rename_i own
      cases there
      rcases task.outcome_new clean found (sending.tasks found now) covered ended with before | fine | mute | refused
      · exact clean.ended now before
      · exact fine
      · refine absurd (.inr ⟨id, outcome, mute, .inl ?_⟩) faultless
        rw [task.phase?_eq, if_pos rfl]
        exact ended
      · exact absurd (.inl refused) faultless
    · exact clean.ended there ended
  case joined =>
    intro other outcome noted
    rcases task.joined_cases with ⟨_, same⟩ | ⟨signalled, rfl, _, more⟩
    · exact clean.joined (same ▸ noted)
    · rw [more] at noted
      rcases List.mem_append.mp noted with early | own
      · exact clean.joined early
      · cases List.mem_singleton.mp own
        exact clean.ended now rfl

/-- Only a statement that fails can stop a task in a run that nobody cancels. -/
private theorem Undisturbed.clean (planned : s.plan.Reachable) (sound : s.plan.Sound [s.root])
    (covered : s.plan.catalog.Covered) (undisturbed : s.Undisturbed st) : Faulty st ∨ Clean st := by
  induction undisturbed with
  | start permits =>
    have waits {id phase} (there : (s.initial permits .none).phase? id = some phase) :
        phase.outcome? = none := by
      rw [phase?_initial sound.paired] at there
      obtain ⟨n, _, rfl⟩ := Option.map_eq_some_iff.mp there
      rfl
    refine .inr ⟨rfl, (fun member => nomatch member), fun there ended => ?_, (fun noted => nomatch noted)⟩
    cases (waits there).symm.trans ended
  | @step st st' _ before quiet stepped ih =>
    rcases step_cases sound.named stepped with ⟨id, old, new, now, task⟩ | ⟨level, raised, _⟩ | ⟨_, _, _, rfl⟩
    · rcases ih with faulty | clean
      · exact .inl (faulty.task now task)
      · obtain ⟨n, found, _⟩ := before.reached.prepared sound.paired id old now
        refine or_iff_not_imp_left.mpr fun faultless => ?_
        exact clean.task (before.reached.sending sound.paired) found (planned.covered covered found) now
          task faultless
    · exact absurd raised (quiet level)
    · rcases ih with (⟨event, member, refusal⟩ | mute) | clean
      · exact .inl (.inl ⟨event, List.mem_append_left _ (List.mem_append_left _ member), refusal⟩)
      · exact .inl (.inr mute)
      · exact .inr ⟨clean.level, clean.completed, clean.ended, clean.joined⟩

end Clean

/-- In a run of a reachable plan, as long as some task has not signalled its end, some task can take a
step. And in a run that nobody cancels and in which no statement fails, every task has sent all its own
when the run is over, and every node counts as completed. -/
theorem progress_and_outcome (planned : s.plan.Reachable) (rooted : s.plan.root = some s.root)
    (covered : s.plan.catalog.Covered) :
    (∀ st id phase, s.Reached st → st.phase? id = some phase → phase.hasSignalled = false → s.CanAct st)
      ∧ ∀ st, s.Undisturbed st → st.allJoined = true →
        (∀ event ∈ st.log, event.isRefusal = false) →
          (∀ id outcome, (id, outcome) ∈ st.joined → hasNoText outcome = false) →
          (∀ id n, s.node? id = some n → n.work s.root = .ok (sentBy id st.log))
            ∧ (Engine.manifestOf s.plan st).nodesCompleted = s.plan.size := by
  obtain ⟨root, rooted', sound⟩ := planned.sound
  cases rooted.symm.trans rooted'
  refine ⟨fun st id phase reached there unfinished => reached.canAct sound there unfinished, ?_⟩
  intro st undisturbed finished unrefused texts
  have reached := undisturbed.reached
  have clean : Clean st := by
    refine (undisturbed.clean planned sound covered).resolve_left ?_
    rintro (⟨event, member, refusal⟩ | ⟨id, outcome, mute, held | noted⟩)
    · cases (unrefused event member).symm.trans refusal
    · obtain ⟨phase, there, ended⟩ := Option.bind_eq_some_iff.mp held
      cases joined_of_allJoined finished there
      cases ended
    · cases (texts id outcome noted).symm.trans mute
  have joined := reached.joined_perm sound.paired finished
  constructor
  · intro id n found
    have noted : id ∈ st.joined.map Prod.fst :=
      joined.mem_iff.mpr (sound.paired.mem_nodeIds.mpr ⟨n, found⟩)
    obtain ⟨⟨_, outcome⟩, member, rfl⟩ := List.mem_map.mp noted
    obtain ⟨_, sends⟩ := (reached.sending sound.paired).ended found member
    have sent := sends (clean.joined member)
    rw [clean.level] at sent
    exact sent.work_eq (planned.covered covered found)
  · have completed := (st.account_of s.plan.root).completed_eq fun _ _ => clean.joined
    exact completed.trans (reached.joined_length sound.paired finished)

section Sample

def busyHalvesSetting : Setting := ⟨Plan.busyHalvesPlan, ⟨0⟩, .ansi, true, true⟩

/-- The progressive dependent sends two increments and stores the second; all others send one
statement. -/
def busyHalvesActions : List Action :=
  [.acquire ⟨1⟩, .proceed ⟨1⟩, .answer ⟨1⟩ (.ok ⟨[], []⟩), .proceed ⟨1⟩, .answer ⟨1⟩ (.ok ⟨[], []⟩),
    .proceed ⟨1⟩, .proceed ⟨1⟩, .answer ⟨1⟩ (.ok ⟨[], []⟩), .signal ⟨1⟩, .join ⟨1⟩]
  ++ [.acquire ⟨2⟩, .proceed ⟨2⟩, .answer ⟨2⟩ (.ok ⟨[], []⟩), .signal ⟨2⟩, .join ⟨2⟩]
  ++ [.receive ⟨0⟩, .receive ⟨0⟩, .acquire ⟨0⟩, .proceed ⟨0⟩, .answer ⟨0⟩ (.ok ⟨[], []⟩), .signal ⟨0⟩,
    .join ⟨0⟩]

theorem busyHalves_outcome : ∃ st n, busyHalvesSetting.Undisturbed st
    ∧ busyHalvesSetting.node? ⟨1⟩ = some n ∧ n.work ⟨0⟩ = .ok (sentBy ⟨1⟩ st.log)
    ∧ (sentBy ⟨1⟩ st.log).length = 3
    ∧ (Engine.manifestOf busyHalvesSetting.plan st).nodesCompleted = 3 := by
  have checked : ((busyHalvesActions.foldlM busyHalvesSetting.step (busyHalvesSetting.initial 1 .none)).any
      fun (st : RunState) => st.allJoined && (st.log.all fun event => !event.isRefusal)
        && (st.joined.all fun entry => !hasNoText entry.2) && decide ((sentBy ⟨1⟩ st.log).length = 3)) = true := by
    decide +kernel
  have rooted : busyHalvesSetting.plan.root = some busyHalvesSetting.root := by decide +kernel
  have there : (busyHalvesSetting.node? ⟨1⟩).isSome = true := by decide +kernel
  have size : busyHalvesSetting.plan.size = 3 := by decide +kernel
  obtain ⟨st, ran, looked⟩ := (Option.any_eq_true _ _).mp checked
  simp only [Bool.and_eq_true, List.all_eq_true, Bool.not_eq_true'] at looked
  obtain ⟨⟨⟨finished, unrefused⟩, texts⟩, count⟩ := looked
  have undisturbed : busyHalvesSetting.Undisturbed st := by
    refine (Undisturbed.start 1).run ?_ ran
    simp [busyHalvesActions]
  obtain ⟨n, found⟩ := Option.isSome_iff_exists.mp there
  obtain ⟨works, completed⟩ := (progress_and_outcome (s := busyHalvesSetting) Plan.busyHalvesPlan_reachable
    rooted Plan.busyHalvesPlan_covered).2 st undisturbed finished unrefused
      fun id outcome => texts (id, outcome)
  refine ⟨st, n, undisturbed, found, works _ n found, of_decide_eq_true count, ?_⟩
  exact completed.trans size

end Sample

end Setting

end ApproxQuery
