import ApproxQuery.Query.Encoding
import ApproxQuery.Query.Decoding
import ApproxQuery.Sql.Literal

/-! A scramble is a shuffled copy of a table cut into numbered blocks. Its coverage says which
share of the population the first blocks hold together. -/
namespace ApproxQuery

/-- Why scramble metadata is refused. -/
inductive ScrambleFault where
  | noBlocks
  | emptyBlockColumn
  | coverageLength (entries blocks : Nat)
  | notCumulative (index : Nat) (share : Float)
  | incomplete (share : Float)

structure ScrambleError where
  name : TableName
  fault : ScrambleFault

def ScrambleFault.text : ScrambleFault → String
  | noBlocks => "block_count must be > 0"
  | emptyBlockColumn => "empty block column"
  | coverageLength entries blocks =>
    Decimal.digitText entries ++ " coverage entries for " ++ Decimal.digitText blocks ++ " blocks"
  | notCumulative index share =>
    "coverage[" ++ Decimal.digitText index ++ "] = " ++ Sql.plainNumber.write share
      ++ " is not cumulative in (0, 1]"
  | incomplete share => "final coverage is " ++ Sql.plainNumber.write share ++ ", expected 1"

def ScrambleError.message (e : ScrambleError) : String :=
  "Scramble catalog error: " ++ e.name.dotted ++ ": " ++ e.fault.text

structure ScrambleMeta where
  schema : String
  table : String
  /-- The column that holds the block number, counted from zero. -/
  blockColumn : String
  blockCount : Nat
  /-- Entry `i` is the share of the population in the blocks up to and including `i`. An empty
  list stands for blocks of equal size. -/
  coverage : List Float
deriving Inhabited

namespace ScrambleMeta

def name (s : ScrambleMeta) : TableName := ⟨s.schema, s.table⟩

/-- Shares are compared up to this difference. -/
def tolerance : Float := 1e-9

/-- The coverage of blocks of equal size. -/
def uniformCoverage (blockCount : Nat) : List Float :=
  (List.range blockCount).map fun i =>
    Decimal.nearestOfInt (i + 1 : Nat) / Decimal.nearestOfInt blockCount

/-- Shares grow, each within zero and one, up to the last, which is one. -/
def checkCoverage (index : Nat) (previous : Float) : List Float → Except ScrambleFault Unit
  | [] => if (previous - 1.0).abs > tolerance then .error (.incomplete previous) else .ok ()
  | share :: rest =>
    if !(share > 0.0 && share ≤ 1.0 + tolerance) || share + tolerance < previous then
      .error (.notCumulative index share)
    else checkCoverage (index + 1) share rest

def check (s : ScrambleMeta) : Except ScrambleFault Unit :=
  if s.blockCount = 0 then .error .noBlocks
  else if s.blockColumn.isEmpty then .error .emptyBlockColumn
  else if s.coverage.length ≠ s.blockCount then
    .error (.coverageLength s.coverage.length s.blockCount)
  else checkCoverage 0 0.0 s.coverage

/-- Accepts the metadata as it is. -/
def accept (s : ScrambleMeta) : Except ScrambleError ScrambleMeta :=
  match s.check with
  | .ok () => .ok s
  | .error fault => .error ⟨s.name, fault⟩

/-- Fills in the coverage of blocks of equal size where none is given, then accepts. -/
def validated (s : ScrambleMeta) : Except ScrambleError ScrambleMeta :=
  accept (if s.coverage.isEmpty then { s with coverage := uniformCoverage s.blockCount } else s)

/-- A scramble with blocks of equal size. -/
def uniform (schema table blockColumn : String) (blockCount : Nat) :
    Except ScrambleError ScrambleMeta :=
  accept ⟨schema, table, blockColumn, blockCount, uniformCoverage blockCount⟩

/-- A scramble with one block for each share. -/
def withCoverage (schema table blockColumn : String) (coverage : List Float) :
    Except ScrambleError ScrambleMeta :=
  accept ⟨schema, table, blockColumn, coverage.length, coverage⟩

/-- What a total over the first blocks is multiplied by to estimate the whole. -/
def scaleFactor (s : ScrambleMeta) : Nat → Option Float
  | 0 => none
  | k + 1 => s.coverage[k]?.map fun share => 1.0 / share

def encode (s : ScrambleMeta) : Data :=
  .record [("schema", .str s.schema), ("table", .str s.table), ("block_column", .str s.blockColumn),
    ("block_count", Data.ofNat s.blockCount), ("coverage", .list (s.coverage.map .float))]

def decode (d : Data) : Read ScrambleMeta := do
  let fields ← d.readFields ["schema", "table", "block_column", "block_count", "coverage"]
  return ⟨← fields.required "schema" Data.readText, ← fields.required "table" Data.readText,
    ← fields.required "block_column" Data.readText,
    ← fields.required "block_count" (Data.readNatBelow UInt32.size),
    ← fields.withDefault "coverage" [] (Data.readList Data.readFloat)⟩

end ScrambleMeta

end ApproxQuery
