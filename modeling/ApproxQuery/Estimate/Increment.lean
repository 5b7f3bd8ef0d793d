import ApproxQuery.Query.Placeholder
import ApproxQuery.Scramble.Meta

/-! The increments of a query over a scramble. Increment `k` of `n` reads the first `k` blocks
and scales each SUM and COUNT by the inverse of the share they cover; the last increment is the
query itself. -/
namespace ApproxQuery

/-- Why there is no increment. -/
inductive IncrementError where
  | outOfRange (k blocks : Nat)
  | noCoverage (k : Nat) (table : TableName)
deriving DecidableEq, Repr

/-- Aggregates whose value grows with the share of the rows that is read. -/
def scaledAggregates : List String := ["sum", "count"]

def isScaledAggregate (name : String) : Bool := scaledAggregates.contains (lowerAscii name)

mutual

/-- A level sees rows of the table, from its own from-list or through derived tables that do
not aggregate. -/
def Query.readsRows (table : TableName) : Query → Bool
  | ⟨_, fromList, _, _, _, _, _, _⟩ => FromItem.readsRowsIn table fromList

def FromItem.readsRows (table : TableName) : FromItem → Bool
  | .table t => t.name = table
  | .subquery query => !query.isAggregateLevel && query.readsRows table
  | .join left right _ _ => left.readsRows table || right.readsRows table
  | .placeholder _ => false

def FromItem.readsRowsIn (table : TableName) : List FromItem → Bool
  | [] => false
  | item :: rest => item.readsRows table || FromItem.readsRowsIn table rest

end

namespace Query

/-- References to the table in the level's own join trees. -/
def directRefs (table : TableName) (q : Query) : List BaseTable :=
  q.directTables.filter fun t => t.name = table

/-- The table occurs at some level. -/
def readsTable (table : TableName) (q : Query) : Bool := q.baseTables.any fun t => t.name = table

end Query

/-- Multiplies a SUM or COUNT by the scale. -/
def scaleCall (scale : Float) : Expr → Expr
  | .func name args distinct =>
    if isScaledAggregate name then
      .binary .mul (.func name args distinct) (.literal (.float scale))
    else .func name args distinct
  | e => e

def scaleAggregates (scale : Float) (e : Expr) : Expr :=
  Id.run (e.replaceAggregates fun call => pure (scaleCall scale call))

/-- Block numbers below `k`, for one reference to the scramble. -/
def blocksBelow (blockColumn : String) (k : Nat) (t : BaseTable) : Expr :=
  .binary .lt (.column (some t.referenceName) blockColumn) (.literal (.int (Int64.ofNat k)))

namespace Query

/-- Scales the outputs, HAVING and ORDER BY of a level. -/
def scaled (scale : Float) (q : Query) : Query :=
  { q with
    selectList := q.selectList.map fun item => { item with expr := scaleAggregates scale item.expr }
    having := q.having.map (scaleAggregates scale)
    orderBy := q.orderBy.map fun item => { item with expr := scaleAggregates scale item.expr } }

/-- Restricts every reference to the scramble to its first `k` blocks, and scales the levels
that see its rows. -/
def restrictTo (s : ScrambleMeta) (k : Nat) (scale : Float) (q : Query) : Query :=
  q.mapLevels fun before level =>
    let level := (before.directRefs s.name).foldl
      (fun level t => level.addFilter (blocksBelow s.blockColumn k t)) level
    if before.readsRows s.name then level.scaled scale else level

/-- Increment `k`, for `k` from one to the number of blocks. -/
def increment (s : ScrambleMeta) (k : Nat) (q : Query) : Except IncrementError Query :=
  if k = 0 || s.blockCount < k then .error (.outOfRange k s.blockCount)
  else if k = s.blockCount then .ok q
  else match s.scaleFactor k with
    | some scale => .ok (q.restrictTo s k scale)
    | none => .error (.noCoverage k s.name)

end Query

end ApproxQuery
