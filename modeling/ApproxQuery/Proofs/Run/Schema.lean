import ApproxQuery.Proofs.Plan.Schema
import ApproxQuery.Proofs.Run.Cleanup
import ApproxQuery.Run.Engine

/-! What a run creates and drops lies in the schema of its plan, whatever the order of its steps; and the
engine, which takes one of these orders, sends nothing else. -/
namespace ApproxQuery

namespace Setting

/-- The tables that a run has recorded, created and dropped lie in the schema, and all that it has sent
has a text. -/
structure Writing (s : Setting) (schema : String) (st : RunState) : Prop where
  recorded : ∀ table ∈ st.recorded, table.schema = schema
  created : ∀ table ∈ createdIn st.log, table.schema = schema
  dropped : ∀ table ∈ droppedIn st.log, table.schema = schema
  worded : ∀ who statement, .sent who statement ∈ st.log → (statement.sql s.dialect).isOk = true

variable {s : Setting} {schema : String} {st st' : RunState} {id : NodeId} {old new : Phase}

private theorem Writing.task (writing : s.Writing schema st) (lies : s.plan.LiesIn schema)
    (task : Task s st id old new st') : s.Writing schema st' := by
  constructor
  case recorded =>
    rcases task.recorded_cases with ⟨same, _⟩ | ⟨n, _, _, _, found, _, _, more, _⟩
    · exact same ▸ writing.recorded
    · intro table member
      rcases List.mem_append.mp (more ▸ member) with early | own
      · exact writing.recorded table early
      · exact List.mem_singleton.mp own ▸ lies.scratch found
  case created =>
    rcases task.recorded_cases with ⟨_, same, _⟩ | ⟨n, _, _, _, found, _, _, _, more, _⟩
    · exact same ▸ writing.created
    · intro table member
      rcases more table member with early | rfl
      · exact writing.created table early
      · exact lies.scratch found
  case dropped => exact task.droppedIn_eq ▸ writing.dropped
  case worded =>
    intro who statement member
    rcases task.log_cases with same | ⟨_, _, _, _, _, _, _, worded, more⟩ | ⟨event, more, quiet⟩
    · exact writing.worded who statement (same ▸ member)
    · rcases List.mem_append.mp (more ▸ member) with early | own
      · exact writing.worded who statement early
      · cases List.mem_singleton.mp own
        exact worded
    · rcases List.mem_append.mp (more ▸ member) with early | own
      · exact writing.worded who statement early
      · exact absurd (List.mem_singleton.mp own).symm (quiet who statement)

/-- In every state of a run all tables lie in the schema of the plan. -/
theorem Reached.writing (lies : s.plan.LiesIn schema) (reached : s.Reached st) : s.Writing schema st := by
  induction reached with
  | start permits level => exact ⟨nofun, nofun, nofun, nofun⟩
  | @step st st' _ _ stepped ih =>
    rcases step_cases lies.named stepped with ⟨id, old, new, _, task⟩ | ⟨level, _, rfl⟩
      | ⟨table, succeeded, next, rfl⟩
    · exact ih.task lies task
    · have created : createdIn (st.raise level).log = createdIn st.log := by simp [RunState.raise, Event.creates?]
      have dropped : droppedIn (st.raise level).log = droppedIn st.log := by simp [RunState.raise, Event.drops?]
      refine ⟨ih.recorded, created ▸ ih.created, dropped ▸ ih.dropped, fun who statement member => ?_⟩
      rcases List.mem_append.mp member with early | own
      · exact ih.worded who statement early
      · cases List.mem_singleton.mp own
    · have inSchema : table.schema = schema := ih.recorded table (List.mem_of_getElem? (recorded_of_nextDrop next))
      refine ⟨ih.recorded, fun other member => ?_, fun other member => ?_, fun who statement member => ?_⟩
      · exact ih.created other (by simpa [createdIn, Event.creates?] using member)
      · have either : other ∈ droppedIn st.log ∨ other = table := by
          simpa [droppedIn, Event.drops?] using member
        exact either.elim (ih.dropped other) fun same => same ▸ inSchema
      · have either : .sent who statement ∈ st.log ∨ who = none ∧ statement = .dropTable table true := by
          simpa using member
        rcases either with early | ⟨_, rfl⟩
        · exact ih.worded who statement early
        · rfl

section Engine

variable {b : Backend}

/-- The text of all that was sent is the right one, never that of an error. -/
theorem Writing.texts (writing : s.Writing schema st) (speaks : b.dialect = s.dialect) :
    List.Forall₂ (fun statement text => statement.sql s.dialect = .ok text) st.statements
      (st.statements.map b.text) := by
  refine List.forall₂_map_right_iff.mpr (List.forall₂_same.mpr fun statement member => ?_)
  obtain ⟨event, inLog, sent⟩ := List.mem_filterMap.mp member
  cases event with
  | answered who own succeeded => cases sent
  | raised level => cases sent
  | sent who own =>
    cases sent
    have worded := writing.worded who statement inLog
    rw [Backend.text, speaks]
    cases text : statement.sql s.dialect with
    | ok own => rfl
    | error e => rw [text] at worded; cases worded

theorem Reached.perform (reached : s.Reached st) (actions : List Action) : s.Reached (s.perform st actions) := by
  induction actions generalizing st with
  | nil => exact reached
  | cons a rest ih =>
    refine ih ?_
    dsimp only
    cases stepped : s.step st a with
    | none => exact reached
    | some next => exact reached.step stepped

theorem Reached.runNode (reached : s.Reached st) (id : NodeId) (fuel : Nat) :
    s.Reached (s.runNode b id fuel st) := by
  induction fuel generalizing st with
  | zero => exact reached
  | succ fuel ih =>
    unfold Setting.runNode
    split
    · exact reached
    · exact ih (reached.perform _)

theorem Reached.runNodes (reached : s.Reached st) (order : List NodeId) : s.Reached (s.runNodes b order st) := by
  unfold Setting.runNodes
  induction order generalizing st with
  | nil => exact reached
  | cons id rest ih =>
    refine ih ?_
    dsimp only
    split
    · exact reached.runNode id _
    · exact reached

theorem Reached.cleanUp (reached : s.Reached st) : s.Reached (s.cleanUp b st) := by
  unfold Setting.cleanUp
  generalize st.recorded = tables
  induction tables generalizing st with
  | nil => exact reached
  | cons table rest ih => exact ih (reached.perform _)

end Engine

end Setting

variable {e : Engine} {p : Plan} {level : CancelLevel} {reports : Bool}

private theorem Engine.rooted_of_opening {root : NodeId} {order : List NodeId}
    (opened : e.opening p = .ok (root, order)) : p.root = some root := by
  simp only [opening, then_eq_ok] at opened
  obtain ⟨_, _, opened⟩ := opened
  split at opened
  · cases opened
  · rename_i own rooted
    obtain ⟨_, _, opened⟩ := bind_eq_ok.mp opened
    obtain ⟨_, opened⟩ := then_eq_ok.mp opened
    cases opened
    exact rooted

/-- What the engine sends when it has an answer is what is sent in a run of the plan. -/
theorem Engine.run_reached {answer : RunAnswer} (done : (e.run p level reports).outcome = .ok answer) :
    ∃ (s : Setting) (st : RunState), s.plan = p ∧ p.root = some s.root ∧ s.dialect = e.backend.dialect
      ∧ s.cleanup = e.config.cleanupScratch ∧ s.Reached st
      ∧ (e.run p level reports).statements = st.statements.map e.backend.text := by
  cases opened : e.opening p with
  | error cause =>
    rw [run, opened] at done
    cases done
  | ok both =>
    obtain ⟨root, order⟩ := both
    let s : Setting := ⟨p, root, e.backend.dialect, reports, e.config.cleanupScratch⟩
    have reached : s.Reached (s.runNodes e.backend order (s.initial e.config.maxParallelNodes level)) :=
      (Setting.Reached.start _ level).runNodes order
    rw [run, opened]
    refine ⟨s, _, rfl, rooted_of_opening opened, rfl, rfl, ?_, rfl⟩
    split
    · exact reached.cleanUp
    · exact reached

end ApproxQuery
