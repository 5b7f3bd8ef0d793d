import ApproxQuery.Query.Basic
import ApproxQuery.Decimal.Layout
import ApproxQuery.Sql.Dialect

/-! Literals as SQL text. -/
namespace ApproxQuery.Sql

/-- Plain numbers are positional throughout, with no point after a whole number. -/
def plainNumber : Decimal.Layout where
  positional _ := true
  pointZero := false
  plus := ""
  tie := .up
  nan := "NaN"
  infinite := "inf"

/-- A whole double is written with all its digits and `.0`, any other with the fewest digits. -/
def float (x : Float) : String :=
  if Decimal.isWhole x then Decimal.writeWhole x else plainNumber.write x

def int (n : Int64) : String :=
  (if n.toInt < 0 then "-" else "") ++ Decimal.digitText n.toInt.natAbs

/-- Strings stand between apostrophes; an apostrophe inside is doubled. -/
def literal : Literal → String
  | .null => "NULL"
  | .bool true => "TRUE"
  | .bool false => "FALSE"
  | .int n => int n
  | .float x => float x
  | .str s => enclose '\x27' s

end ApproxQuery.Sql
