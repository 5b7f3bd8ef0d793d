import ApproxQuery.Query.Basic
import ApproxQuery.Data.Basic

/-! Queries as data. Every field is written, in a fixed order. -/
namespace ApproxQuery

namespace Data

def ofOption {α : Type} (encode : α → Data) : Option α → Data
  | some value => encode value
  | none => .null

def ofNat (n : Nat) : Data := .int n

/-- A variant with content. -/
def variant (name : String) (content : Data) : Data := .record [(name, content)]

end Data

open Data (ofOption ofNat variant)

def NodeId.encode (id : NodeId) : Data := ofNat id.index

def QueueId.encode (id : QueueId) : Data := ofNat id.index

def TableName.encode (name : TableName) : Data :=
  .record [("schema", .str name.schema), ("table", .str name.table)]

def BaseTable.encode (t : BaseTable) : Data :=
  .record [("schema", .str t.schema), ("table", .str t.table), ("alias", ofOption .str t.asName)]

def PlaceholderRef.encode (ref : PlaceholderRef) : Data :=
  .record [("node", ref.node.encode), ("table", ref.table.encode), ("alias", .str ref.asName)]

def JoinKind.keyword : JoinKind → String
  | inner => "inner" | left => "left" | right => "right" | full => "full" | cross => "cross"

def BinaryOp.keyword : BinaryOp → String
  | add => "add" | sub => "sub" | mul => "mul" | div => "div"
  | eq => "eq" | notEq => "not_eq" | lt => "lt" | ltEq => "lt_eq" | gt => "gt" | gtEq => "gt_eq"
  | and => "and" | or => "or" | like => "like"

def SubqueryKind.keyword : SubqueryKind → String
  | scalar => "scalar" | membership => "in" | existence => "exists"

def Literal.encode : Literal → Data
  | null => .str "null"
  | bool value => variant "bool" (.bool value)
  | int value => variant "int" (.int value.toInt)
  | float value => variant "float" (.float value)
  | str value => variant "str" (.str value)

mutual

def Expr.encode : Expr → Data
  | .column table name =>
    variant "column" (.record [("table", ofOption .str table), ("name", .str name)])
  | .literal value => variant "literal" value.encode
  | .star table => variant "star" (.record [("table", ofOption .str table)])
  | .func name args distinct =>
    variant "func" (.record [("name", .str name), ("args", .list (Expr.encodeAll args)),
      ("distinct", .bool distinct)])
  | .binary op left right =>
    variant "binary" (.record [("op", .str op.keyword), ("left", left.encode),
      ("right", right.encode)])
  | .not operand => variant "not" operand.encode
  | .isNull operand negated =>
    variant "is_null" (.record [("expr", operand.encode), ("negated", .bool negated)])
  | .subquery query => variant "subquery" query.encode
  | .inSubquery operand query negated =>
    variant "in_subquery" (.record [("expr", operand.encode), ("subquery", query.encode),
      ("negated", .bool negated)])
  | .existsSubquery query negated =>
    variant "exists" (.record [("subquery", query.encode), ("negated", .bool negated)])

def FromItem.encode : FromItem → Data
  | .table t => variant "table" t.encode
  | .subquery query => variant "subquery" query.encode
  | .join left right kind on =>
    variant "join" (.record [("left", left.encode), ("right", right.encode),
      ("kind", .str kind.keyword), ("on", match on with | some e => e.encode | none => .null)])
  | .placeholder ref => variant "placeholder" ref.encode

def Query.encode : Query → Data
  | ⟨selectList, fromList, filter, groupBy, having, orderBy, limit, asName⟩ =>
    .record [("select_list", .list (SelectItem.encodeAll selectList)),
      ("from_list", .list (FromItem.encodeAll fromList)),
      ("filter", match filter with | some e => e.encode | none => .null),
      ("group_by", .list (Expr.encodeAll groupBy)),
      ("having", match having with | some e => e.encode | none => .null),
      ("order_by", .list (OrderItem.encodeAll orderBy)),
      ("limit", ofOption (fun n => ofNat n.toNat) limit),
      ("alias", ofOption .str asName)]

def Expr.encodeAll : List Expr → List Data
  | [] => []
  | e :: rest => e.encode :: Expr.encodeAll rest

def SelectItem.encodeAll : List SelectItem → List Data
  | [] => []
  | ⟨e, asName⟩ :: rest =>
    .record [("expr", e.encode), ("alias", ofOption .str asName)] :: SelectItem.encodeAll rest

def OrderItem.encodeAll : List OrderItem → List Data
  | [] => []
  | ⟨e, descending⟩ :: rest =>
    .record [("expr", e.encode), ("descending", .bool descending)] :: OrderItem.encodeAll rest

def FromItem.encodeAll : List FromItem → List Data
  | [] => []
  | item :: rest => item.encode :: FromItem.encodeAll rest

end

end ApproxQuery
