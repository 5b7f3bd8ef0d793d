import ApproxQuery.Plan.Prepare
import ApproxQuery.Yaml.Document

/-! A request to plan a query: the query, the scrambles it may use, and where scratch tables go. -/
namespace ApproxQuery

/-- Why a text is not a request. -/
inductive RequestError where
  | yaml (fault : Yaml.Fault)
  | content (error : ReadError)
  | scramble (error : ScrambleError)

def RequestError.reason : RequestError → String
  | yaml _ => "not a document"
  | content _ => "not a plan request"
  | scramble error => error.message

def RequestError.message (e : RequestError) : String := "yaml: " ++ e.reason

structure PlanRequest where
  /-- The schema of the scratch tables; without it that of the settings. -/
  scratchSchema : Option String
  scrambles : Catalog
  query : Query

namespace PlanRequest

def decode (format : Leniency) (d : Data) : Except RequestError PlanRequest := do
  let fields ← (d.readFields ["scratch_schema", "scrambles", "query"]).mapError .content
  let scratchSchema ← (fields.optional "scratch_schema" Data.readText).mapError .content
  let metas ←
    (fields.withDefault "scrambles" [] (Data.readList ScrambleMeta.decode)).mapError .content
  let query ← (fields.required "query" (Query.decode format)).mapError .content
  return ⟨scratchSchema, ← (Catalog.ofList metas).mapError .scramble, query⟩

/-- The names of all fields and variants that have content. What stands under another name is not
read, so aliases there cost nothing. -/
def names : List String :=
  ["scratch_schema", "scrambles", "query", "schema", "table", "block_column", "block_count",
    "coverage", "select_list", "from_list", "filter", "group_by", "having", "order_by", "limit",
    "alias", "expr", "descending", "subquery", "join", "placeholder", "left", "right", "kind", "on",
    "node", "column", "literal", "star", "func", "binary", "not", "is_null", "in_subquery",
    "exists", "name", "args", "distinct", "op", "negated", "null", "bool", "int", "float", "str"]

/-- Reads a YAML text. -/
def ofYaml (text : String) : Except RequestError PlanRequest := do
  decode Data.yaml (← (Yaml.parse names.contains text).mapError .yaml)

/-- The schema of the scratch tables. -/
def schema (r : PlanRequest) (c : Config) : String := r.scratchSchema.getD c.scratchSchema

def prepare (r : PlanRequest) (c : Config) (tag : String) : Except PrepareError Prepared :=
  Plan.prepare c (r.schema c) tag r.scrambles r.query

end PlanRequest

end ApproxQuery
