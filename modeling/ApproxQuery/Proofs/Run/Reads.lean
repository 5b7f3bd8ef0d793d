import ApproxQuery.Proofs.Plan.Reachable
import ApproxQuery.Proofs.Run.Tokens

/-! No statement of a run reads a scratch table before it is written or after it is dropped. -/
namespace ApproxQuery

/-- A statement that creates the table has succeeded. -/
def Created (log : List Event) (table : TableName) : Prop :=
  ∃ who query, .answered who (.createTableAs table query) true ∈ log

/-- A statement that drops the table has been sent. -/
def Dropped (log : List Event) (table : TableName) : Prop :=
  ∃ who ifExists, .sent who (.dropTable table ifExists) ∈ log

/-- Whatever a node's statement reads had been created when it was sent, and not dropped. -/
def ReadsCreated (log : List Event) : Prop :=
  ∀ before after id statement, log = before ++ .sent (some id) statement :: after →
    ∀ ref ∈ statement.placeholders, Created before ref.table ∧ ¬ Dropped before ref.table

namespace Setting

variable {s : Setting} {st st' : RunState} {id : NodeId} {log : List Event} {event : Event}

private theorem ReadsCreated.append (reads : ReadsCreated log)
    (own : ∀ id statement, event = .sent (some id) statement →
      ∀ ref ∈ statement.placeholders, Created log ref.table ∧ ¬ Dropped log ref.table) :
    ReadsCreated (log ++ [event]) := by
  intro before after id statement split
  rcases List.eq_nil_or_concat after with rfl | ⟨init, last, rfl⟩
  · obtain ⟨same, only⟩ := List.append_inj' split rfl
    rw [← same]
    exact own id statement (List.head_eq_of_cons_eq only)
  · rw [List.concat_eq_append, ← List.cons_append, ← List.append_assoc] at split
    exact reads before init id statement (List.append_inj' split rfl).1

theorem not_drop_of_asks {n : Node} {turn : Turn} {awaited : Awaited} {statement : Statement}
    (asked : Asks s n turn awaited statement) (table : TableName) (ifExists : Bool) :
    statement ≠ .dropTable table ifExists := by
  cases asked with
  | _ => exact nofun

theorem joined_of_allJoined (all : st.allJoined = true) {phase : Phase}
    (there : st.phase? id = some phase) : phase = .joined := by
  have own := List.all_eq_true.mp all phase
    (List.mem_map.mpr ⟨(id, phase), AscendingMap.mem_entries_of_find? there, rfl⟩)
  cases phase with
  | joined => rfl
  | _ => cases own

private theorem joined_of_nextDrop {table : TableName} (next : s.nextDrop? st = some table)
    {phase : Phase} (there : st.phase? id = some phase) : phase = .joined := by
  unfold nextDrop? at next
  split at next
  · rename_i done
    exact joined_of_allJoined (Bool.and_eq_true_iff.mp done).2 there
  · cases next

private theorem Dropped.of_append {table : TableName} (dropped : Dropped (log ++ [event]) table)
    (other : ∀ who ifExists, event ≠ .sent who (.dropTable table ifExists)) : Dropped log table := by
  obtain ⟨who, ifExists, member⟩ := dropped
  rcases List.mem_append.mp member with early | last
  · exact ⟨who, ifExists, early⟩
  · exact absurd (List.mem_singleton.mp last).symm (other who ifExists)

/-- Nothing is dropped before all tasks have been joined. -/
theorem Reached.joined_of_dropped (named : ∀ {id n}, s.node? id = some n → n.id = id)
    (reached : s.Reached st) {table : TableName} (dropped : Dropped st.log table) {id : NodeId}
    {phase : Phase} (there : st.phase? id = some phase) : phase = .joined := by
  induction reached generalizing id phase with
  | start =>
    obtain ⟨_, _, member⟩ := dropped
    cases member
  | @step st st' _ _ stepped ih =>
    rcases step_cases named stepped with ⟨own, old, new, now, task⟩ | ⟨level, _, rfl⟩
      | ⟨next, _, isNext, rfl⟩
    · have earlier : Dropped st.log table := by
        rcases task.log_cases with same | ⟨n, turn, awaited, statement, _, _, asked, _, more⟩
          | ⟨event, more, quiet⟩
        · exact same ▸ dropped
        · rw [more] at dropped
          refine Dropped.of_append dropped fun who ifExists same => ?_
          exact not_drop_of_asks asked table ifExists (Event.sent.inj same).2
        · rw [more] at dropped
          exact Dropped.of_append dropped fun who ifExists => quiet who _
      -- A task that has been joined does nothing any more.
      cases ih earlier now
      cases task
    · exact ih (Dropped.of_append dropped fun _ _ => nofun) there
    · exact joined_of_nextDrop isNext there

private theorem Reached.readsCreated (sound : s.plan.Sound [s.root]) (reached : s.Reached st) :
    ReadsCreated st.log := by
  induction reached with
  | start =>
    intro before after id statement split
    cases before <;> cases split
  | @step st st' _ before stepped ih =>
    rcases step_cases sound.named stepped with ⟨id, old, new, now, task⟩ | ⟨level, _, rfl⟩
      | ⟨table, _, _, rfl⟩
    · rcases task.log_cases with same | ⟨n, turn, awaited, statement, found, rfl, asked, _, more⟩
        | ⟨event, more, quiet⟩
      · exact same ▸ ih
      · rw [more]
        refine ReadsCreated.append ih fun id' statement' same ref member => ?_
        cases same
        obtain ⟨n', found', ready⟩ := before.prepared sound.paired id _ now
        cases found.symm.trans found'
        have occurs := asked.placeholders_subset ready member
        have reads := (sound.consistent found).mem_dependents.mpr ⟨ref, occurs, rfl⟩
        obtain ⟨m, there, table⟩ := sound.stored found occurs
        obtain ⟨m', query, there', told⟩ := (before.accounted sound).holding now rfl found _ reads
        cases there.symm.trans there'
        refine ⟨⟨_, query, table ▸ told⟩, fun dropped => ?_⟩
        cases before.joined_of_dropped sound.named dropped now
      · rw [more]
        exact ReadsCreated.append ih fun _ _ same => absurd same (quiet _ _)
    · exact ReadsCreated.append ih fun _ _ => nofun
    · exact ReadsCreated.append (ReadsCreated.append ih fun _ _ => nofun) fun _ _ => nofun

/-- In a run of a reachable plan, whatever a statement of a node reads had been created by the time
it was sent, and no statement that drops it had been sent. -/
theorem Reached.reads_created (planned : s.plan.Reachable) (rooted : s.plan.root = some s.root)
    (reached : s.Reached st) {before after : List Event} {id : NodeId} {statement : Statement}
    {ref : PlaceholderRef} (sent : st.log = before ++ .sent (some id) statement :: after)
    (member : ref ∈ statement.placeholders) :
    Created before ref.table ∧ ¬ Dropped before ref.table := by
  obtain ⟨root, rooted', sound⟩ := planned.sound
  cases rooted.symm.trans rooted'
  exact reached.readsCreated sound before after id statement sent ref member

/-- A run of the sample plan with no updates and with a clean-up. -/
def busyDaysSetting : Setting := ⟨Plan.busyDaysPlan, ⟨0⟩, .ansi, false, true⟩

/-- Each dependent runs and signals the root, which then sends its statement. -/
def busyDaysActions : List Action :=
  [⟨1⟩, ⟨2⟩].flatMap (fun d =>
    [.acquire d, .proceed d, .answer d (.ok ⟨[], []⟩), .signal d, .receive ⟨0⟩])
    ++ [.acquire ⟨0⟩, .proceed ⟨0⟩]

/-- A node that sends a statement, with the nodes whose tables it reads. -/
private def readBy : Event → Option (NodeId × List NodeId)
  | .sent (some id) statement => some (id, statement.placeholders.map PlaceholderRef.node)
  | _ => none

private theorem sent_of_readBy {nodes : List NodeId} (read : readBy event = some (id, nodes)) :
    ∃ statement, event = .sent (some id) statement
      ∧ statement.placeholders.map PlaceholderRef.node = nodes := by
  cases event with
  | sent who statement =>
    cases who with
    | none => cases read
    | some own =>
      cases read
      exact ⟨statement, rfl, rfl⟩
  | answered who statement succeeded => cases read
  | raised level => cases read

theorem busyDays_reads_created :
    ∃ st before after statement, busyDaysSetting.Reached st
      ∧ st.log = before ++ .sent (some ⟨0⟩) statement :: after
      ∧ statement.placeholders.map PlaceholderRef.node = [⟨1⟩, ⟨2⟩]
      ∧ ∀ ref ∈ statement.placeholders, Created before ref.table ∧ ¬ Dropped before ref.table := by
  have checked : ((busyDaysActions.foldlM busyDaysSetting.step (busyDaysSetting.initial 1 .none)).any
      fun (st : RunState) => st.log[4]?.bind readBy = some (⟨0⟩, [⟨1⟩, ⟨2⟩])) = true := by
    decide +kernel
  obtain ⟨st, ran, looked⟩ := (Option.any_eq_true _ _).mp checked
  have reached := (Reached.start 1 .none).run ran
  obtain ⟨event, there, read⟩ := Option.bind_eq_some_iff.mp (of_decide_eq_true looked)
  obtain ⟨statement, rfl, nodes⟩ := sent_of_readBy read
  obtain ⟨inLog, last⟩ := List.getElem?_eq_some_iff.mp there
  have sent : st.log = st.log.take 4 ++ .sent (some ⟨0⟩) statement :: st.log.drop 5 := by
    rw [← last, List.getElem_cons_drop, List.take_append_drop]
  refine ⟨st, _, _, statement, reached, sent, nodes, fun ref member => ?_⟩
  exact Reached.reads_created Plan.busyDaysPlan_reachable rfl reached sent member

end Setting

end ApproxQuery
