import ApproxQuery.Data.Reading
import ApproxQuery.Text.Blank

/-! Settings of planner and engine. -/
namespace ApproxQuery

/-- Why settings are refused. -/
inductive ConfigError where
  | emptyScratchSchema
  | noParallelNodes
deriving DecidableEq, Repr

def ConfigError.message : ConfigError → String
  | emptyScratchSchema => "Invalid configuration: scratch_schema must not be empty"
  | noParallelNodes => "Invalid configuration: max_parallel_nodes must be > 0"

structure Config where
  /-- The schema of every scratch table. -/
  scratchSchema : String := "aqp_temp"
  /-- How many nodes may run at a time. -/
  maxParallelNodes : Nat := 4
  compress : Bool := true
  progressive : Bool := true
  /-- Scratch tables are dropped when a run ends, however it ends. -/
  cleanupScratch : Bool := true
deriving DecidableEq, Repr, Inhabited

namespace Config

def validate (c : Config) : Except ConfigError Unit :=
  if c.scratchSchema.isEmpty then .error .emptyScratchSchema
  else if c.maxParallelNodes = 0 then .error .noParallelNodes
  else .ok ()

/-- A switch, whatever its case and the blanks around it. -/
def flag? (s : String) : Option Bool :=
  let word := String.ofList ((Text.trim s.toList).map Char.toLower)
  if ["1", "true", "yes", "on"].contains word then some true
  else if ["0", "false", "no", "off"].contains word then some false
  else none

/-- A count below `2 ^ 64` in decimal digits, after one optional plus sign. -/
def count? (s : String) : Option Nat :=
  let digits := match s.toList with
    | '+' :: rest => rest
    | all => all
  (CoreSchema.digits? 10 digits).filter fun n => n < UInt64.size

/-- The environment variables that count. -/
def variableNames : List String :=
  ["AQP_SCRATCH_SCHEMA", "AQP_MAX_PARALLEL_NODES", "AQP_COMPRESS", "AQP_PROGRESSIVE",
    "AQP_CLEANUP_SCRATCH"]

/-- The settings that environment variables give. A value that cannot be read is ignored. -/
def ofEnvironment (valueOf : String → Option String) : Config :=
  let initial : Config := {}
  let schema := (valueOf "AQP_SCRATCH_SCHEMA").map fun s => String.ofList (Text.trim s.toList)
  { scratchSchema := (schema.filter fun s => !s.isEmpty).getD initial.scratchSchema
    maxParallelNodes :=
      ((valueOf "AQP_MAX_PARALLEL_NODES").bind count?).getD initial.maxParallelNodes
    compress := ((valueOf "AQP_COMPRESS").bind flag?).getD initial.compress
    progressive := ((valueOf "AQP_PROGRESSIVE").bind flag?).getD initial.progressive
    cleanupScratch := ((valueOf "AQP_CLEANUP_SCRATCH").bind flag?).getD initial.cleanupScratch }

def encode (c : Config) : Data :=
  .record [("scratch_schema", .str c.scratchSchema),
    ("max_parallel_nodes", .int c.maxParallelNodes),
    ("compress", .bool c.compress), ("progressive", .bool c.progressive),
    ("cleanup_scratch", .bool c.cleanupScratch)]

/-- The fields, in order. -/
def fieldNames : List String :=
  ["scratch_schema", "max_parallel_nodes", "compress", "progressive", "cleanup_scratch"]

def decode (d : Data) : Read Config := do
  let fields ← d.readFields fieldNames
  return {
    scratchSchema := ← fields.required "scratch_schema" Data.readText
    maxParallelNodes := ← fields.required "max_parallel_nodes" (Data.readNatBelow UInt64.size)
    compress := ← fields.required "compress" Data.readBool
    progressive := ← fields.required "progressive" Data.readBool
    cleanupScratch := ← fields.required "cleanup_scratch" Data.readBool }

end Config

end ApproxQuery
