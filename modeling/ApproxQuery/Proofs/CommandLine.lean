import ApproxQuery.CommandLine
import ApproxQuery.Proofs.Run.Schema

/-! Where a run that is started from the command line writes. Three places can name the schema of its
scratch tables: a flag, the request and the settings. The flag counts for the settings of the run, but the
request is asked once more when the plan is prepared, so a request that names a schema has the last word. -/
namespace ApproxQuery

/-- What stands on the output is, at its beginning, these statements with a semicolon each. -/
def Outcome.Shows (o : Outcome) (d : Sql.Dialect) (statements : List Statement) : Prop :=
  ∃ texts rest, List.Forall₂ (fun statement text => statement.sql d = .ok text) statements texts
    ∧ o.output = text (texts.map (· ++ ";") ++ rest)

namespace Command

/-- The schema that is asked for: that of the flag, without it that of the request, and without both that
of the settings. -/
def askedSchema (c : Command) (environment : Config) (r : PlanRequest) : String :=
  c.scratchSchema.getD (r.scratchSchema.getD environment.scratchSchema)

/-- The schema that is written to. Here the request comes before the flag. -/
def writtenSchema (c : Command) (environment : Config) (r : PlanRequest) : String :=
  r.scratchSchema.getD (c.scratchSchema.getD environment.scratchSchema)

/-- The flag and the request do not contradict each other. -/
def Agrees (c : Command) (r : PlanRequest) : Prop :=
  ∀ flag own, c.scratchSchema = some flag → r.scratchSchema = some own → flag = own

/-- A run that the command starts for a request. -/
structure Starts (c : Command) (environment : Config) (tag : String) (r : PlanRequest) (s : Setting) : Prop where
  prepared : ∃ prepared, r.prepare (c.runConfig environment r) tag = .ok prepared ∧ prepared.plan = s.plan
  rooted : s.plan.root = some s.root
  dialect : s.dialect = c.dialect
  cleanup : s.cleanup = (c.config environment).cleanupScratch

variable {c : Command} {environment : Config} {tag : String} {r : PlanRequest} {s : Setting}

theorem Agrees.writtenSchema_eq (agrees : c.Agrees r) :
    c.writtenSchema environment r = c.askedSchema environment r := by
  unfold writtenSchema askedSchema
  cases given : c.scratchSchema with
  | none => rfl
  | some flag =>
    cases own : r.scratchSchema with
    | none => rfl
    | some own' => exact (agrees flag own' given own).symm

@[simp] theorem scratchSchema_runConfig :
    (c.runConfig environment r).scratchSchema = c.askedSchema environment r := rfl

private theorem schema_runConfig : r.schema (c.runConfig environment r) = c.writtenSchema environment r := by
  rw [PlanRequest.schema, scratchSchema_runConfig, askedSchema, writtenSchema]
  cases own : r.scratchSchema with
  | none => rfl
  | some own' => rfl

theorem Starts.liesIn (starts : c.Starts environment tag r s) :
    s.plan.LiesIn (c.writtenSchema environment r) := by
  obtain ⟨prepared, done, same⟩ := starts.prepared
  rw [← same, ← schema_runConfig]
  exact Plan.LiesIn.prepare done

/-- No run starts with settings that name no schema. -/
theorem Starts.askedSchema_ne (starts : c.Starts environment tag r s) : c.askedSchema environment r ≠ "" := by
  obtain ⟨prepared, done, _⟩ := starts.prepared
  obtain ⟨⟨⟩, valid, _⟩ := bind_eq_ok.mp done
  have accepted : (c.runConfig environment r).validate = .ok () := mapError_eq_ok.mp valid
  intro empty
  rw [Config.validate, scratchSchema_runConfig, empty] at accepted
  cases accepted

private theorem runRequest_ok {content : Except String String}
    (succeeded : (c.runRequest environment tag content).code = 0) :
    ∃ r prepared, loadRequest content = .ok r ∧ r.prepare (c.runConfig environment r) tag = .ok prepared
      ∧ c.runRequest environment tag content = c.runPrepared (c.runConfig environment r) prepared := by
  unfold runRequest at succeeded ⊢
  split at succeeded
  · cases succeeded
  · rename_i dry
    dsimp only at succeeded ⊢
    split at succeeded
    · rename_i config prepared done
      obtain ⟨r, loaded, done'⟩ := bind_eq_ok.mp done
      obtain ⟨_, planned, ⟨⟩⟩ := bind_eq_ok.mp done'
      exact ⟨r, prepared, loaded, mapError_eq_ok.mp planned, if_neg dry⟩
    · cases succeeded

private theorem runPrepared_ok {config : Config} {prepared : Prepared} {schema : String}
    (lies : prepared.plan.LiesIn schema) (succeeded : (c.runPrepared config prepared).code = 0) :
    ∃ (s : Setting) (st : RunState), s.plan = prepared.plan ∧ s.plan.root = some s.root ∧ s.dialect = c.dialect
      ∧ s.cleanup = config.cleanupScratch ∧ s.Reached st
      ∧ (c.runPrepared config prepared).Shows c.dialect st.statements := by
  let engine : Engine := ⟨config, (Script.silent c.dialect).backend⟩
  let record := engine.run prepared.plan .none true
  unfold runPrepared at succeeded ⊢
  dsimp only at succeeded ⊢
  split at succeeded
  · rename_i answer done
    obtain ⟨s, st, plan, rooted, dialect, cleanup, reached, sent⟩ := Engine.run_reached done
    have speaks : s.dialect = c.dialect := dialect
    refine ⟨s, st, plan, plan ▸ rooted, speaks, cleanup, reached, st.statements.map engine.backend.text,
      record.updates.map progressLine ++ resultLines answer.result ++ manifestLines answer.manifest, ?_, ?_⟩
    · exact speaks ▸ (reached.writing (plan ▸ lies)).texts dialect.symm
    · simp only [Outcome.success, record, engine, sent, List.append_assoc]
  · cases succeeded

/-- A run that succeeds shows what one of the runs that it could have started has sent. -/
theorem starts_of_success {content : Except String String} (runs : c.verb = .run)
    (succeeded : (c.execute environment tag content).code = 0) :
    ∃ r, loadRequest content = .ok r ∧ ∃ s st, c.Starts environment tag r s ∧ s.Reached st
      ∧ (c.execute environment tag content).Shows c.dialect st.statements := by
  have asked : c.execute environment tag content = c.runRequest environment tag content := by rw [execute, runs]
  rw [asked] at succeeded ⊢
  obtain ⟨r, prepared, loaded, planned, same⟩ := runRequest_ok succeeded
  rw [same] at succeeded ⊢
  obtain ⟨s, st, plan, rooted, dialect, cleanup, reached, shows⟩ :=
    runPrepared_ok (Plan.LiesIn.prepare planned) succeeded
  exact ⟨r, loaded, s, st, ⟨⟨prepared, planned, plan.symm⟩, rooted, dialect, cleanup⟩, reached, shows⟩

/-- The scratch tables of a run that succeeds lie in one schema: that of the request, without it that of
the flag, and without both that of the settings. It is the one that was asked for, unless the flag and the
request contradict each other. -/
theorem run_scratch_schema {arguments : List String} {contentOf : String → Except String String}
    (parsed : ofArguments arguments = some c) (runs : c.verb = .run)
    (succeeded : (ApproxQuery.execute arguments environment tag contentOf).code = 0) :
    ∃ r, loadRequest (contentOf c.path) = .ok r ∧ c.askedSchema environment r ≠ ""
      ∧ (∃ s st, c.Starts environment tag r s ∧ s.Reached st
        ∧ (ApproxQuery.execute arguments environment tag contentOf).Shows c.dialect st.statements)
      ∧ ∀ s st, c.Starts environment tag r s → s.Reached st →
        ∀ table, table ∈ createdIn st.log ∨ table ∈ droppedIn st.log →
          table.schema = c.writtenSchema environment r
            ∧ (c.Agrees r → table.schema = c.askedSchema environment r) := by
  have asked : ApproxQuery.execute arguments environment tag contentOf
      = c.execute environment tag (contentOf c.path) := by rw [ApproxQuery.execute, parsed]
  rw [asked] at succeeded ⊢
  obtain ⟨r, loaded, s, st, starts, reached, shows⟩ := starts_of_success runs succeeded
  refine ⟨r, loaded, starts.askedSchema_ne, ⟨s, st, starts, reached, shows⟩, ?_⟩
  intro s st starts reached table either
  have writing := reached.writing starts.liesIn
  have written : table.schema = c.writtenSchema environment r :=
    either.elim (writing.created table) (writing.dropped table)
  exact ⟨written, fun agrees => written.trans agrees.writtenSchema_eq⟩

section Sample

/-- A run that is given a schema by a flag. -/
def flagged : List String :=
  ["run", "--request", "plan.yaml", "--dry-run", "--no-compress", "--scratch-schema", "flag"]

/-- What these arguments describe. -/
def flaggedCommand : Command := ⟨.run, "plan.yaml", true, false, false, true, false, none, some "flag"⟩

/-- The options are read one after the other; what remains is closed. -/
private theorem ofArguments_flagged : ofArguments flagged = some flaggedCommand := by
  have request : Argument.ofText "--request" = .long "request" none := rfl
  have path : Argument.ofText "plan.yaml" = .word "plan.yaml" := rfl
  have dry : Argument.ofText "--dry-run" = .long "dry-run" none := rfl
  have apart : Argument.ofText "--no-compress" = .long "no-compress" none := rfl
  have schema : Argument.ofText "--scratch-schema" = .long "scratch-schema" none := rfl
  have named : Argument.ofText "flag" = .word "flag" := rfl
  have read : Verb.run.readOptions 7 flagged.tail = some [("request", some "plan.yaml"), ("dry-run", none),
      ("no-compress", none), ("scratch-schema", some "flag")] := by
    simp [flagged, Verb.readOptions, Verb.readOptions.valued, Verb.flags, Verb.settings, request, path, dry, apart,
      schema, named]
  change (Verb.run.readOptions 7 flagged.tail >>= ofOptions .run) = _
  rw [read]
  rfl

/-- A request that needs a scratch table, with what stands in front of the query. -/
def counting (front : List String) : Except String String :=
  .ok (Outcome.text (front ++ ["query:", " select_list:", " - expr:", "    star:", "     table: null",
    " from_list:", " - subquery:", "    select_list:", "    - expr:", "       func:", "        name: count",
    "        args:", "        - star:", "           table: null", "    alias: counts"]))

/-- The tables that are created when the task of the second node is the first to do something. -/
private def firstCreated (c : Command) (content : Except String String) : Except String (List TableName) := do
  let r ← loadRequest content
  let prepared ← (r.prepare (c.runConfig {} r) "0").mapError PrepareError.message
  match prepared.plan.root with
  | none => .error (PlanError.invalid .unbuilt).message
  | some root =>
    let s : Setting := ⟨prepared.plan, root, c.dialect, true, (c.config {}).cleanupScratch⟩
    return createdIn (s.perform (s.initial 1 .none) [.acquire ⟨1⟩, .proceed ⟨1⟩]).log

private theorem starts_of_firstCreated {content : Except String String} {tables : List TableName}
    (created : firstCreated c content = .ok tables) :
    ∃ r s st, loadRequest content = .ok r ∧ c.Starts {} "0" r s ∧ s.Reached st ∧ createdIn st.log = tables := by
  obtain ⟨r, loaded, created⟩ := bind_eq_ok.mp created
  obtain ⟨prepared, planned, created⟩ := bind_eq_ok.mp created
  cases rooted : prepared.plan.root with
  | none =>
    rw [rooted] at created
    cases created
  | some root =>
    rw [rooted] at created
    let s : Setting := ⟨prepared.plan, root, c.dialect, true, (c.config {}).cleanupScratch⟩
    have reached := (Setting.Reached.start (s := s) 1 .none).perform [.acquire ⟨1⟩, .proceed ⟨1⟩]
    exact ⟨r, s, _, loaded, ⟨⟨prepared, mapError_eq_ok.mp planned, rfl⟩, rooted, rfl, rfl⟩, reached,
      Except.ok.inj created⟩

/-- Without a schema in the request the tables lie in that of the flag. -/
theorem run_scratch_schema_flagged :
    ofArguments flagged = some flaggedCommand ∧ flaggedCommand.verb = .run
      ∧ (ApproxQuery.execute flagged {} "0" fun _ => counting []).code = 0
      ∧ ∃ r, loadRequest (counting []) = .ok r
        ∧ (∃ s st, flaggedCommand.Starts {} "0" r s ∧ s.Reached st
          ∧ createdIn st.log = [⟨"flag", "aqptemptable_0_1"⟩])
        ∧ ∀ s st, flaggedCommand.Starts {} "0" r s → s.Reached st →
          ∀ table, table ∈ createdIn st.log ∨ table ∈ droppedIn st.log → table.schema = "flag" := by
  have succeeded : (ApproxQuery.execute flagged {} "0" fun _ => counting []).code = 0 := by
    rw [ApproxQuery.execute, ofArguments_flagged]
    decide +kernel
  have created : firstCreated flaggedCommand (counting []) = .ok [⟨"flag", "aqptemptable_0_1"⟩] := by
    decide +kernel
  obtain ⟨r, loaded, _, _, all⟩ := run_scratch_schema ofArguments_flagged rfl succeeded
  obtain ⟨r', s, st, loaded', starts, reached, first⟩ := starts_of_firstCreated created
  obtain rfl : r' = r := Except.ok.inj (loaded'.symm.trans loaded)
  have written : "flag" = flaggedCommand.writtenSchema {} r' :=
    (all s st starts reached ⟨"flag", "aqptemptable_0_1"⟩ (.inl (first ▸ List.mem_singleton_self _))).1
  exact ⟨ofArguments_flagged, rfl, succeeded, r', loaded, ⟨s, st, starts, reached, first⟩,
    fun s st starts reached table either => (all s st starts reached table either).1.trans written.symm⟩

/-- The flag does not win over a request that names a schema of its own. -/
theorem run_scratch_schema_not_flag :
    ¬ ∀ (arguments : List String) (environment : Config) (tag : String)
        (contentOf : String → Except String String) (c : Command) (r : PlanRequest) (s : Setting) (st : RunState),
      ofArguments arguments = some c → c.verb = .run →
      (ApproxQuery.execute arguments environment tag contentOf).code = 0 →
      loadRequest (contentOf c.path) = .ok r → c.Starts environment tag r s → s.Reached st →
      ∀ table, table ∈ createdIn st.log ∨ table ∈ droppedIn st.log →
        table.schema = c.askedSchema environment r := by
  intro all
  have succeeded : (ApproxQuery.execute flagged {} "0" fun _ => counting ["scratch_schema: own"]).code = 0 := by
    rw [ApproxQuery.execute, ofArguments_flagged]
    decide +kernel
  have created : firstCreated flaggedCommand (counting ["scratch_schema: own"])
      = .ok [⟨"own", "aqptemptable_0_1"⟩] := by decide +kernel
  obtain ⟨r, s, st, loaded, starts, reached, first⟩ := starts_of_firstCreated created
  have same : "own" = flaggedCommand.askedSchema {} r :=
    all flagged {} "0" _ flaggedCommand r s st ofArguments_flagged rfl succeeded loaded starts reached
      ⟨"own", "aqptemptable_0_1"⟩ (.inl (first ▸ List.mem_singleton_self _))
  have named : flaggedCommand.askedSchema {} r = "flag" := rfl
  exact absurd (same.trans named) (by decide)

end Sample

end Command

end ApproxQuery
