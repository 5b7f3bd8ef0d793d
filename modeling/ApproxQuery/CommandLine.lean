import ApproxQuery.Plan.Explain
import ApproxQuery.PlanRequest
import ApproxQuery.Run.Script
import ApproxQuery.Text.Quoted

/-! The command line: a request is validated, explained, or run without a backend. -/
namespace ApproxQuery

inductive Verb where
  | validate | explain | run
deriving DecidableEq, Repr

def Verb.ofName? : String → Option Verb
  | "validate" => some validate
  | "explain" => some explain
  | "run" => some run
  | _ => none

namespace Verb

/-- Options without a value. -/
def flags : Verb → List String
  | validate => []
  | explain => ["no-compress", "no-progressive", "hive"]
  | run => ["dry-run", "keep-scratch", "no-compress", "no-progressive", "hive"]

/-- Options with a value. -/
def settings : Verb → List String
  | validate => ["request"]
  | explain => ["request"]
  | run => ["request", "max-parallel", "scratch-schema"]

end Verb

/-- An argument as it may be meant. -/
inductive Argument where
  /-- A name behind two hyphens, with what follows an equals sign. -/
  | long (name : String) (attached : Option String)
  /-- A letter behind one hyphen, with what follows it. -/
  | short (letter : Char) (attached : Option String)
  /-- Two hyphens alone. -/
  | terminator
  | word (text : String)

namespace Argument

/-- What follows the letter of a short option, without an equals sign in front. -/
def attachedOf : List Char → Option String
  | [] => none
  | '=' :: rest => some (String.ofList rest)
  | rest => some (String.ofList rest)

def ofText (text : String) : Argument :=
  match text.toList with
  | ['-', '-'] => terminator
  | '-' :: '-' :: body =>
    let name := String.ofList (body.takeWhile fun c => c ≠ '=')
    match body.dropWhile fun c => c ≠ '=' with
    | _ :: value => long name (some (String.ofList value))
    | [] => long name none
  | '-' :: letter :: rest => short letter (attachedOf rest)
  | _ => word text

end Argument

/-- Options by name. A flag has no value. -/
abbrev Given := List (String × Option String)

namespace Verb

/-- The options of a verb; there is no answer when an argument is none of them, or lacks its
value. -/
def readOptions (v : Verb) : Nat → List String → Option Given
  | 0, _ => none
  | _ + 1, [] => some []
  | fuel + 1, text :: rest =>
    match Argument.ofText text with
    | .terminator => if rest.isEmpty then some [] else none
    | .word _ => none
    | .long name attached =>
      if v.flags.contains name then
        if attached.isSome then none else (readOptions v fuel rest).map ((name, none) :: ·)
      else if v.settings.contains name then valued fuel name attached rest
      else none
    | .short letter attached => if letter = 'r' then valued fuel "request" attached rest else none
where
  /-- An option whose value is attached or comes next. -/
  valued (fuel : Nat) (name : String) (attached : Option String) (rest : List String) :
      Option Given :=
    match attached, rest with
    | some value, rest => (readOptions v fuel rest).map ((name, some value) :: ·)
    | none, next :: rest =>
      match Argument.ofText next with
      | .word value => (readOptions v fuel rest).map ((name, some value) :: ·)
      | _ => none
    | none, [] => none

end Verb

/-- No option is given twice. -/
def Given.isSingle : Given → Bool
  | [] => true
  | (name, _) :: rest => !rest.any (fun other => other.1 = name) && Given.isSingle rest

def Given.has (g : Given) (name : String) : Bool := g.any fun other => other.1 = name

def Given.value? (g : Given) (name : String) : Option String := (g.lookup name).join

structure Command where
  verb : Verb
  /-- The file that holds the request. -/
  path : String
  noCompress : Bool
  noProgressive : Bool
  hive : Bool
  dryRun : Bool
  keepScratch : Bool
  maxParallel : Option Nat
  scratchSchema : Option String
deriving Repr

namespace Command

/-- The command that options describe. A path is not empty, and a count is a number. -/
def ofOptions (v : Verb) (g : Given) : Option Command := do
  let path ← (g.value? "request").filter fun path => !path.isEmpty
  let maxParallel ← match g.value? "max-parallel" with
    | some text => (Config.count? text).map some
    | none => some none
  if !g.isSingle then none
  return {
    verb := v
    path
    noCompress := g.has "no-compress"
    noProgressive := g.has "no-progressive"
    hive := g.has "hive"
    dryRun := g.has "dry-run"
    keepScratch := g.has "keep-scratch"
    maxParallel
    scratchSchema := g.value? "scratch-schema" }

def ofArguments : List String → Option Command
  | [] => none
  | name :: arguments => do
    let v ← Verb.ofName? name
    ofOptions v (← v.readOptions (arguments.length + 1) arguments)

def dialect (c : Command) : Sql.Dialect := if c.hive then .hive else .ansi

/-- The settings of the environment with those of the command. -/
def config (c : Command) (environment : Config) : Config :=
  { environment with
    compress := environment.compress && !c.noCompress
    progressive := environment.progressive && !c.noProgressive
    cleanupScratch := environment.cleanupScratch && !c.keepScratch
    maxParallelNodes := c.maxParallel.getD environment.maxParallelNodes }

end Command

/-- What a command leaves on the two output streams, and its exit code. -/
structure Outcome where
  code : Nat
  output : String
  errors : String
deriving Repr, Inhabited

namespace Outcome

/-- Lines of text, each with its end. -/
def text (lines : List String) : String := String.join (lines.map (· ++ "\n"))

def success (lines : List String) : Outcome := ⟨0, text lines, ""⟩

/-- A failure with what was written before. -/
def failure (lines : List String) (label reason : String) : Outcome :=
  ⟨1, text lines, text [label ++ reason]⟩

/-- Arguments that are no command. -/
def unusable : Outcome := ⟨2, "", text ["usage: validate|explain|run --request FILE [OPTIONS]"]⟩

end Outcome

namespace Command

/-- The request in the content of the file, which may be unreadable for a reason. -/
def loadRequest (content : Except String String) : Except String PlanRequest := do
  (PlanRequest.ofYaml (← content)).mapError RequestError.message

def validateRequest (content : Except String String) : Outcome :=
  let checked : Except String Unit := do
    let r ← loadRequest content
    r.query.validate.mapError PlanError.message
  match checked with
  | .ok () => .success ["✓ Request is valid"]
  | .error reason => .failure [] "Validation failed: " reason

def reasonText : NotConverted → String
  | .noScrambledTable => "NoScrambledTable"
  | .nonDecomposable call => "NonDecomposable(" ++ Text.quoted call ++ ")"
  | .inconsistentEstimate reason => "InconsistentEstimate(" ++ Text.quoted reason.text ++ ")"
  | .alreadyProgressive => "AlreadyProgressive"

def compressionLines (c : Compression) : List String :=
  ("Compression: " ++ Decimal.digitText c.merged.length ++ " merged, "
      ++ Decimal.digitText c.violations.length ++ " left unmerged")
    :: c.merged.map fun (node, parent) => "  " ++ node.label ++ " -> " ++ parent.label

def conversionLine : Conversion → String
  | .converted node table blocks absorbed =>
    "Progressive: " ++ node.label ++ " over " ++ table.dotted ++ " (" ++ Decimal.digitText blocks
      ++ " blocks, absorbed " ++ Decimal.digitText absorbed.length ++ ")"
  | .notConverted root reason =>
    "Not progressive: " ++ root.label ++ " (" ++ reasonText reason ++ ")"

def explainRequest (c : Command) (environment : Config) (tag : String)
    (content : Except String String) : Outcome :=
  let lines : Except String (List String) := do
    let r ← loadRequest content
    let prepared ← (r.prepare (c.config environment) tag).mapError PrepareError.message
    let listing ← (prepared.plan.explain c.dialect).mapError PlanError.message
    return listing :: ((prepared.compression.map compressionLines).getD []
      ++ prepared.conversions.map conversionLine)
  match lines with
  | .ok lines => .success lines
  | .error reason => .failure [] "Error: " reason

def progressLine (u : Update) : String :=
  "  progress " ++ u.node.label ++ ": " ++ Decimal.digitText u.done ++ "/"
    ++ Decimal.digitText u.total ++ " blocks"

/-- Columns and rows, with tabs between cells; nothing without columns. -/
def resultLines (r : QueryResult) : List String :=
  if r.columns.isEmpty then []
  else ("\t".intercalate r.columns) :: r.rows.map fun row => "\t".intercalate (row.map Scalar.text)

def manifestLines (m : Manifest) : List String :=
  ["✓ Plan executed successfully",
    "  Duration: " ++ Decimal.digitText m.elapsed ++ "ms",
    "  Plan hash: " ++ m.planHash.hex,
    "  Nodes: " ++ Decimal.digitText m.nodesCompleted ++ " completed of "
      ++ Decimal.digitText m.nodesScheduled ++ " (" ++ Decimal.digitText m.progressiveNodes
      ++ " progressive)",
    "  Scratch tables dropped: " ++ Decimal.digitText m.scratchTablesDropped]

/-- The settings of a run: the schema of the command comes before that of the request. -/
def runConfig (c : Command) (environment : Config) (r : PlanRequest) : Config :=
  let config := c.config environment
  { config with scratchSchema := c.scratchSchema.getD (r.schema config) }

/-- Shows the statements of a run in place of executing them. -/
def runPrepared (c : Command) (config : Config) (prepared : Prepared) : Outcome :=
  let engine : Engine := ⟨config, (Script.silent c.dialect).backend⟩
  let record := engine.run prepared.plan .none true
  let statements := record.statements.map (· ++ ";")
  match record.outcome with
  | .ok answer =>
    .success (statements ++ record.updates.map progressLine ++ resultLines answer.result
      ++ manifestLines answer.manifest)
  | .error cause => .failure statements "Error: " cause.message

def runRequest (c : Command) (environment : Config) (tag : String)
    (content : Except String String) : Outcome :=
  if !c.dryRun then
    .failure [] "Error: " "no backend connector is built into this binary; pass --dry-run"
  else
    let prepared : Except String (Config × Prepared) := do
      let r ← loadRequest content
      let config := c.runConfig environment r
      return (config, ← (r.prepare config tag).mapError PrepareError.message)
    match prepared with
    | .ok (config, prepared) => c.runPrepared config prepared
    | .error reason => .failure [] "Error: " reason

/-- Executes a command with the content of its file. -/
def execute (c : Command) (environment : Config) (tag : String)
    (content : Except String String) : Outcome :=
  match c.verb with
  | .validate => validateRequest content
  | .explain => c.explainRequest environment tag content
  | .run => c.runRequest environment tag content

end Command

/-- Executes the command that some arguments describe. -/
def execute (arguments : List String) (environment : Config) (tag : String)
    (contentOf : String → Except String String) : Outcome :=
  match Command.ofArguments arguments with
  | some c => c.execute environment tag (contentOf c.path)
  | none => .unusable

end ApproxQuery
