import ApproxQuery.Proofs.Plan.Rewrites
import ApproxQuery.Proofs.Run.Reads
import ApproxQuery.Proofs.Run.Sending

/-! What the clean-up drops: the tables that tasks have recorded, each once, when all is done. -/
namespace ApproxQuery

/-- The table that an event asks to create. -/
def Event.creates? : Event → Option TableName
  | .sent _ (.createTableAs table _) => some table
  | _ => none

/-- The table that an event asks to drop. -/
def Event.drops? : Event → Option TableName
  | .sent _ (.dropTable table _) => some table
  | _ => none

/-- The tables whose creation has been sent, in order. -/
def createdIn (log : List Event) : List TableName := log.filterMap Event.creates?

/-- The tables of which a drop has been sent, in order. -/
def droppedIn (log : List Event) : List TableName := log.filterMap Event.drops?

/-- The task may still record its table. -/
def Phase.mayRecord : Phase → Bool
  | .waiting _ => true
  | .running _ => true
  | .asking (.increment _ _ _) _ => true
  | _ => false

section Log

variable {log : List Event} {event : Event}

@[simp] theorem createdIn_concat (log : List Event) (event : Event) :
    createdIn (log ++ [event]) = createdIn log ++ event.creates?.toList := by
  rw [createdIn, List.filterMap_append, createdIn]
  cases created : event.creates? with
  | none => simp [created]
  | some table => simp [created]

@[simp] theorem droppedIn_concat (log : List Event) (event : Event) :
    droppedIn (log ++ [event]) = droppedIn log ++ event.drops?.toList := by
  rw [droppedIn, List.filterMap_append, droppedIn]
  cases dropped : event.drops? with
  | none => simp [dropped]
  | some table => simp [dropped]

theorem dropped_of_mem_droppedIn {table : TableName} (member : table ∈ droppedIn log) :
    Dropped log table := by
  obtain ⟨event, inLog, drops⟩ := List.mem_filterMap.mp member
  cases event with
  | sent who statement =>
    cases statement with
    | dropTable own ifExists =>
      cases drops
      exact ⟨who, ifExists, inLog⟩
    | select query => cases drops
    | createTableAs own query => cases drops
  | answered who statement succeeded => cases drops
  | raised level => cases drops

end Log

namespace Setting

variable {s : Setting} {st st' : RunState} {id : NodeId} {old new : Phase}

namespace Task

/-- What is recorded after a step: a task that is about to write its table records it, and there is
nothing to record for it afterwards. -/
theorem recorded_cases (task : Task s st id old new st') :
    st'.recorded = st.recorded ∧ createdIn st'.log = createdIn st.log
        ∧ (old.mayRecord = false → new.mayRecord = false)
      ∨ ∃ n turn awaited query, s.node? id = some n ∧ old = .running turn
        ∧ Asks s n turn awaited (.createTableAs n.scratch query)
        ∧ st'.recorded = st.recorded ++ [n.scratch]
        ∧ (∀ table ∈ createdIn st'.log, table ∈ createdIn st.log ∨ table = n.scratch)
        ∧ new.mayRecord = false := by
  cases task with
  | asks found asked _ =>
    cases asked with
    | answer atRoot => exact .inl ⟨rfl, by simp [RunState.recordFor, Event.creates?], nofun⟩
    | increment due made => exact .inl ⟨rfl, by simp [RunState.recordFor, Event.creates?], nofun⟩
    | whole below =>
      refine .inr ⟨_, _, _, _, found, rfl, .whole below, rfl, fun table member => ?_, rfl⟩
      simpa [RunState.recordFor, RunState.record, Event.creates?] using member
    | store =>
      refine .inr ⟨_, _, _, _, found, rfl, .store, rfl, fun table member => ?_, rfl⟩
      simpa [RunState.recordFor, RunState.record, Event.creates?] using member
  | mute found asked _ =>
    cases asked with
    | answer atRoot => exact .inl ⟨rfl, rfl, nofun⟩
    | increment due made => exact .inl ⟨rfl, rfl, nofun⟩
    | whole below =>
      exact .inr ⟨_, _, _, _, found, rfl, .whole below, rfl, fun table member => .inl member, rfl⟩
    | store => exact .inr ⟨_, _, _, _, found, rfl, .store, rfl, fun table member => .inl member, rfl⟩
  | advances =>
    refine .inl ⟨?_, by simp [Event.creates?], nofun⟩
    rw [publish_eq]
    rfl
  | joins =>
    refine .inl ⟨?_, ?_, fun _ => rfl⟩
    · dsimp only
      split
      · rfl
      · rfl
    · dsimp only
      split
      · rfl
      · simp [RunState.raise, Event.creates?]
  | finishes => exact .inl ⟨rfl, by simp [Event.creates?], fun _ => rfl⟩
  | saves => exact .inl ⟨rfl, by simp [Event.creates?], fun _ => rfl⟩
  | refused found => exact .inl ⟨rfl, by simp [Event.creates?], fun _ => rfl⟩
  | receives first completed => exact .inl ⟨rfl, rfl, nofun⟩
  | stores spent below => exact .inl ⟨rfl, rfl, nofun⟩
  | acquires found permits => exact .inl ⟨rfl, rfl, nofun⟩
  | _ => exact .inl ⟨rfl, rfl, fun _ => rfl⟩

theorem dropsSent_eq (task : Task s st id old new st') : st'.dropsSent = st.dropsSent := by
  cases task with
  | asks =>
    rw [RunState.recordFor_eq]
    rfl
  | mute =>
    rw [RunState.recordFor_eq]
    rfl
  | advances =>
    rw [publish_eq]
    rfl
  | joins =>
    dsimp only
    split
    · rfl
    · rfl
  | _ => rfl

/-- No task drops anything. -/
theorem droppedIn_eq (task : Task s st id old new st') : droppedIn st'.log = droppedIn st.log := by
  have quiet (event : Event) (none : event.drops? = none) :
      droppedIn (st.log ++ [event]) = droppedIn st.log := by simp [none]
  rcases task.log_cases with same | ⟨n, turn, awaited, statement, _, _, asked, _, more⟩ | ⟨event, more, still⟩
  · rw [same]
  · rw [more]
    apply quiet
    cases statement with
    | dropTable table ifExists => exact absurd rfl (not_drop_of_asks asked table ifExists)
    | _ => rfl
  · rw [more]
    apply quiet
    cases event with
    | sent who statement => exact absurd rfl (still who statement)
    | _ => rfl

end Task

/-- Tables are recorded once, by tasks below the root, and before they are written. The drops go
through the records. -/
structure Recording (s : Setting) (st : RunState) : Prop where
  distinct : st.recorded.Nodup
  owned : ∀ table ∈ st.recorded, ∃ id n phase, s.node? id = some n ∧ id ≠ s.root
    ∧ n.scratch = table ∧ st.phase? id = some phase ∧ phase.mayRecord = false
  created : ∀ table ∈ createdIn st.log, table ∈ st.recorded
  dropped : droppedIn st.log <+: st.recorded
  counted : st.dropsSent = (droppedIn st.log).length

private theorem below_of_stores {n : Node} {turn : Turn} {awaited : Awaited} {table : TableName}
    {query : Query} {stops : Bool} {sent : List Statement}
    (asked : Asks s n turn awaited (.createTableAs table query))
    (follows : turn.Follows n s.root stops sent) : n.id ≠ s.root := by
  cases asked with
  | whole below => exact below
  | store =>
    cases follows with
    | store _ below => exact below

private theorem Recording.task (recording : s.Recording st) (sound : s.plan.Sound [s.root])
    (sending : s.Sending st) (now : st.phase? id = some old) (task : Task s st id old new st') :
    s.Recording st' := by
  have dropped := task.droppedIn_eq
  -- The owner of a recorded table has nothing to record any more, and so it stays.
  have owned (keeps : old.mayRecord = false → new.mayRecord = false) (table)
      (member : table ∈ st.recorded) : ∃ id n phase, s.node? id = some n ∧ id ≠ s.root
        ∧ n.scratch = table ∧ st'.phase? id = some phase ∧ phase.mayRecord = false := by
    obtain ⟨other, n, phase, found, below, own, there, done⟩ := recording.owned table member
    by_cases same : id = other
    · subst same
      cases now.symm.trans there
      exact ⟨id, n, new, found, below, own, by rw [task.phase?_eq, if_pos rfl], keeps done⟩
    · exact ⟨other, n, phase, found, below, own, by rw [task.phase?_eq, if_neg same, there], done⟩
  rcases task.recorded_cases with ⟨same, created, keeps⟩
    | ⟨n, turn, awaited, query, found, rfl, asked, more, created, done⟩
  · exact {
      distinct := same ▸ recording.distinct
      owned := same ▸ owned keeps
      created := by rw [same, created]; exact recording.created
      dropped := by rw [same, dropped]; exact recording.dropped
      counted := by rw [dropped, task.dropsSent_eq]; exact recording.counted }
  · have below := below_of_stores asked (sending.tasks found now)
    have fresh : n.scratch ∉ st.recorded := by
      intro member
      obtain ⟨other, m, phase, there, _, same, stands, spent⟩ := recording.owned _ member
      cases sound.scratch there found same
      cases now.symm.trans stands
      cases spent
    constructor
    case distinct =>
      rw [more]
      refine List.nodup_append.mpr ⟨recording.distinct, List.nodup_singleton _, ?_⟩
      rintro table early _ own rfl
      exact fresh (List.mem_singleton.mp own ▸ early)
    case owned =>
      intro table member
      rw [more] at member
      rcases List.mem_append.mp member with early | own
      · exact owned (fun spent => nomatch spent) table early
      · cases List.mem_singleton.mp own
        refine ⟨id, n, new, found, sound.named found ▸ below, rfl, ?_, done⟩
        rw [task.phase?_eq, if_pos rfl]
    case created =>
      intro table member
      rw [more]
      rcases created table member with early | rfl
      · exact List.mem_append_left _ (recording.created table early)
      · exact List.mem_append_right _ List.mem_cons_self
    case dropped =>
      rw [dropped, more]
      exact recording.dropped.trans (List.prefix_append _ _)
    case counted =>
      rw [dropped, task.dropsSent_eq]
      exact recording.counted

theorem recorded_of_nextDrop {table : TableName} (next : s.nextDrop? st = some table) :
    st.recorded[st.dropsSent]? = some table := by
  unfold nextDrop? at next
  split at next
  · exact next
  · cases next

/-- The next drop is of the next table that was recorded. -/
private theorem Recording.drop {table : TableName} {succeeded : Bool} (recording : s.Recording st)
    (next : s.nextDrop? st = some table) (phases : st'.phases = st.phases)
    (recorded : st'.recorded = st.recorded) (sent : st'.dropsSent = st.dropsSent + 1)
    (log : st'.log = st.log ++ [.sent none (.dropTable table true)]
      ++ [.answered none (.dropTable table true) succeeded]) : s.Recording st' := by
  have phase (id) : st'.phase? id = st.phase? id := congrArg (AscendingMap.find? · id) phases
  have created : createdIn st'.log = createdIn st.log := by
    simp [log, createdIn, Event.creates?]
  have dropped : droppedIn st'.log = droppedIn st.log ++ [table] := by
    simp [log, droppedIn, Event.drops?]
  obtain ⟨rest, all⟩ := recording.dropped
  have first : rest[0]? = some table := by
    have found := recorded_of_nextDrop next
    rwa [← all, recording.counted, List.getElem?_append_right (Nat.le_refl _), Nat.sub_self] at found
  obtain ⟨later, rfl⟩ : ∃ later, rest = table :: later := by
    cases rest with
    | nil => cases first
    | cons own later => exact ⟨later, by rw [Option.some.inj first]⟩
  constructor
  case distinct => exact recorded ▸ recording.distinct
  case owned =>
    intro own member
    simp only [phase]
    exact recording.owned own (recorded ▸ member)
  case created =>
    rw [created, recorded]
    exact recording.created
  case dropped =>
    rw [dropped, recorded]
    exact ⟨later, (List.append_assoc _ _ _).trans all⟩
  case counted => rw [sent, dropped, recording.counted, List.length_append, List.length_singleton]

/-- In every state of a run the records are right. -/
theorem Reached.recording (sound : s.plan.Sound [s.root]) (reached : s.Reached st) :
    s.Recording st := by
  induction reached with
  | start permits level =>
    exact ⟨List.nodup_nil, (fun _ member => nomatch member), (fun _ member => nomatch member),
      List.prefix_refl _, rfl⟩
  | @step st st' _ before stepped ih =>
    rcases step_cases sound.named stepped with ⟨id, old, new, now, task⟩ | ⟨level, _, rfl⟩
      | ⟨table, succeeded, next, rfl⟩
    · exact ih.task sound (before.sending sound.paired) now task
    · have created : createdIn (st.raise level).log = createdIn st.log := by
        simp [RunState.raise, Event.creates?]
      have dropped : droppedIn (st.raise level).log = droppedIn st.log := by
        simp [RunState.raise, Event.drops?]
      exact ⟨ih.distinct, ih.owned, created ▸ ih.created, dropped ▸ ih.dropped, dropped ▸ ih.counted⟩
    · exact ih.drop next rfl rfl rfl rfl

/-- All that is sent before the first drop comes from tasks, and all that is sent from there on are
drops. -/
private theorem Reached.parted (sound : s.plan.Sound [s.root]) (reached : s.Reached st) :
    ∃ work cleaning, st.log = work ++ cleaning ∧ droppedIn work = []
      ∧ ∀ who statement, .sent who statement ∈ cleaning →
        who = none ∧ ∃ table, statement = .dropTable table true := by
  induction reached with
  | start permits level => exact ⟨[], [], rfl, rfl, fun _ _ member => nomatch member⟩
  | @step st st' _ before stepped ih =>
    obtain ⟨work, cleaning, all, undropped, only⟩ := ih
    rcases step_cases sound.named stepped with ⟨id, old, new, now, task⟩ | ⟨level, _, rfl⟩
      | ⟨table, succeeded, _, rfl⟩
    · have none : droppedIn st.log = [] := by
        refine List.eq_nil_iff_forall_not_mem.mpr fun table member => ?_
        have dropped := dropped_of_mem_droppedIn member
        exact task.unjoined (before.joined_of_dropped sound.named dropped now)
      exact ⟨st'.log, [], (List.append_nil _).symm, task.droppedIn_eq.trans none,
        fun _ _ member => nomatch member⟩
    · refine ⟨work, cleaning ++ [.raised level], ?_, undropped, fun who statement member => ?_⟩
      · exact (congrArg (· ++ _) all).trans (List.append_assoc _ _ _)
      · simp only [List.mem_append, List.mem_singleton, reduceCtorEq, or_false] at member
        exact only who statement member
    · refine ⟨work, cleaning ++ [.sent none (.dropTable table true),
        .answered none (.dropTable table true) succeeded], ?_, undropped, fun who statement member => ?_⟩
      · refine (congrArg (· ++ _ ++ _) all).trans ?_
        simp only [List.append_assoc, List.singleton_append]
      · simp only [List.mem_append, List.mem_cons, Event.sent.injEq, List.not_mem_nil, reduceCtorEq,
          or_false] at member
        rcases member with early | ⟨rfl, rfl⟩
        · exact only who statement early
        · exact ⟨rfl, table, rfl⟩

/-- A run is over when all tasks have been joined and no table is left to drop. -/
def Finished (s : Setting) (st : RunState) : Prop :=
  st.allJoined = true ∧ ∀ succeeded, s.step st (.drop succeeded) = none

private theorem Recording.droppedIn_eq (recording : s.Recording st) (cleanup : s.cleanup = true)
    (finished : s.Finished st) : droppedIn st.log = st.recorded := by
  have nothing : s.nextDrop? st = none := by
    have still := finished.2 true
    rwa [step, Option.map_eq_none_iff] at still
  have past : st.recorded[st.dropsSent]? = none := by
    rw [nextDrop?, cleanup, finished.1] at nothing
    exact nothing
  refine recording.dropped.eq_of_length_le ?_
  rw [← recording.counted]
  exact List.getElem?_eq_none_iff.mp past

/-- In a run of a reachable plan drops come after everything else, each of the scratch table of a node
below the root; and when the run is over, every table whose creation was sent has been dropped once. -/
theorem Reached.cleaned_up (planned : s.plan.Reachable) (rooted : s.plan.root = some s.root)
    (reached : s.Reached st) :
    (∃ work cleaning, st.log = work ++ cleaning ∧ droppedIn work = []
        ∧ ∀ who statement, .sent who statement ∈ cleaning →
          who = none ∧ ∃ table, statement = .dropTable table true)
      ∧ (∀ table ∈ droppedIn st.log, (droppedIn st.log).count table = 1
        ∧ (∃ id n, s.node? id = some n ∧ id ≠ s.root ∧ table = n.scratch)
        ∧ (∀ n, s.node? s.root = some n → table ≠ n.scratch)
        ∧ ∃ k, table = s.plan.numberedTable k)
      ∧ (s.cleanup = true → s.Finished st →
        ∀ table ∈ createdIn st.log, (droppedIn st.log).count table = 1) := by
  obtain ⟨root, rooted', sound⟩ := planned.sound
  cases rooted.symm.trans rooted'
  have recording := reached.recording sound
  have once {table : TableName} (member : table ∈ droppedIn st.log) :
      (droppedIn st.log).count table = 1 :=
    List.count_eq_one_of_mem (recording.distinct.sublist recording.dropped.sublist) member
  refine ⟨reached.parted sound, fun table member => ⟨once member, ?_⟩, fun cleanup finished table created => ?_⟩
  · obtain ⟨id, n, _, found, below, rfl, _⟩ := recording.owned table (recording.dropped.subset member)
    refine ⟨⟨id, n, found, below, rfl⟩, fun top there same => ?_, planned.numbered found⟩
    exact below (sound.scratch found there same)
  · apply once
    rw [recording.droppedIn_eq cleanup finished]
    exact recording.created table created

/-- The sample run goes on to its end: the root answers, all tasks are joined, and of the two tables
one is dropped and the other fails to be. -/
def busyDaysEnding : List Action :=
  [.answer ⟨0⟩ (.ok ⟨[], []⟩), .signal ⟨0⟩, .join ⟨1⟩, .join ⟨2⟩, .join ⟨0⟩, .drop true, .drop false]

theorem busyDays_cleaned_up : ∃ st, busyDaysSetting.Reached st ∧ busyDaysSetting.Finished st
    ∧ createdIn st.log = [busyDaysSetting.plan.numberedTable 1, busyDaysSetting.plan.numberedTable 2]
    ∧ ∀ table ∈ createdIn st.log, (droppedIn st.log).count table = 1 := by
  have checked : (((busyDaysActions ++ busyDaysEnding).foldlM busyDaysSetting.step
      (busyDaysSetting.initial 1 .none)).any fun (st : RunState) =>
        st.allJoined && (busyDaysSetting.nextDrop? st).isNone && createdIn st.log
          = [busyDaysSetting.plan.numberedTable 1, busyDaysSetting.plan.numberedTable 2]) = true := by
    decide +kernel
  have rooted : busyDaysSetting.plan.root = some busyDaysSetting.root := by decide +kernel
  obtain ⟨st, ran, looked⟩ := (Option.any_eq_true _ _).mp checked
  obtain ⟨finished, created⟩ := Bool.and_eq_true_iff.mp looked
  obtain ⟨joined, nothing⟩ := Bool.and_eq_true_iff.mp finished
  have reached := (Reached.start 1 .none).run ran
  have finished : busyDaysSetting.Finished st := by
    refine ⟨joined, fun succeeded => ?_⟩
    rw [step, Option.isNone_iff_eq_none.mp nothing]
    rfl
  obtain ⟨_, _, dropped⟩ :=
    Reached.cleaned_up (s := busyDaysSetting) Plan.busyDaysPlan_reachable rooted reached
  exact ⟨st, reached, finished, of_decide_eq_true created, dropped rfl finished⟩

end Setting

end ApproxQuery
