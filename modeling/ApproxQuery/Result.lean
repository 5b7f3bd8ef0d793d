import ApproxQuery.Data.Reading
import ApproxQuery.Query.Encoding
import ApproxQuery.Sql.Literal

/-! Values and rows that a backend answers with. They are handed on, never computed with. -/
namespace ApproxQuery

inductive Scalar where
  | null
  | bool (value : Bool)
  | int (value : Int64)
  | float (value : Float)
  | str (value : String)
deriving Inhabited

namespace Scalar

def isNull : Scalar → Bool
  | null => true
  | _ => false

/-- The numeric view. -/
def toFloat? : Scalar → Option Float
  | int value => some (Decimal.nearestOfInt value.toInt)
  | float value => some value
  | _ => none

/-- How a cell is shown. -/
def text : Scalar → String
  | null => "NULL"
  | bool true => "true"
  | bool false => "false"
  | int value => Sql.int value
  | float value => Sql.plainNumber.write value
  | str value => value

def encode : Scalar → Data
  | null => .str "Null"
  | bool value => Data.variant "Bool" (.bool value)
  | int value => Data.variant "I64" (.int value.toInt)
  | float value => Data.variant "F64" (.float value)
  | str value => Data.variant "Str" (.str value)

def decode (format : Leniency) (d : Data) : Read Scalar := do
  match ← d.readVariant with
  | ("Null", content) => Data.readEmpty format .null content
  | ("Bool", content) => .bool <$> Data.readContent Data.readBool content
  | ("I64", content) => .int <$> Data.readContent Data.readInt64 content
  | ("F64", content) => .float <$> Data.readContent Data.readFloat content
  | ("Str", content) => .str <$> Data.readContent Data.readText content
  | (name, _) => .error (.unknownVariant name)

end Scalar

/-- Column names and rows. -/
structure QueryResult where
  columns : List String
  rows : List (List Scalar)
deriving Inhabited

namespace QueryResult

def empty : QueryResult := ⟨[], []⟩

/-- The position of the first column with the name. -/
def columnIndex? (r : QueryResult) (name : String) : Option Nat :=
  r.columns.findIdx? fun c => c = name

/-- The cell in a row and a named column. -/
def value? (r : QueryResult) (row : Nat) (column : String) : Option Scalar := do
  let index ← r.columnIndex? column
  let cells ← r.rows[row]?
  cells[index]?

def encode (r : QueryResult) : Data :=
  .record [("columns", .list (r.columns.map .str)),
    ("rows", .list (r.rows.map fun row => .list (row.map Scalar.encode)))]

def decode (format : Leniency) (d : Data) : Read QueryResult := do
  let fields ← d.readFields ["columns", "rows"]
  return ⟨← fields.required "columns" (Data.readList Data.readText),
    ← fields.required "rows" (Data.readList (Data.readList (Scalar.decode format)))⟩

end QueryResult

end ApproxQuery
