import ApproxQuery.Query.Basic
import ApproxQuery.Data.Reading

/-! Queries from data. Each reader takes a bound on the nesting that is left; the public ones
start from the nesting of the data itself, which always suffices. -/
namespace ApproxQuery

open Data

/-- Identifiers and limits are integers of 64 bits without sign. -/
def Data.readWord (d : Data) : Read Nat := d.readNatBelow UInt64.size

def NodeId.decode (d : Data) : Read NodeId := NodeId.mk <$> d.readWord

def QueueId.decode (d : Data) : Read QueueId := QueueId.mk <$> d.readWord

def TableName.decode (d : Data) : Read TableName := do
  let fields ← d.readFields ["schema", "table"]
  return ⟨← fields.required "schema" readText, ← fields.required "table" readText⟩

def BaseTable.decode (d : Data) : Read BaseTable := do
  let fields ← d.readFields ["schema", "table", "alias"]
  return ⟨← fields.required "schema" readText, ← fields.required "table" readText,
    ← fields.optional "alias" readText⟩

def PlaceholderRef.decode (d : Data) : Read PlaceholderRef := do
  let fields ← d.readFields ["node", "table", "alias"]
  return ⟨← fields.required "node" NodeId.decode, ← fields.required "table" TableName.decode,
    ← fields.required "alias" readText⟩

def JoinKind.decode (format : Leniency) : Data → Read JoinKind :=
  readName format [("inner", .inner), ("left", .left), ("right", .right), ("full", .full),
    ("cross", .cross)]

def BinaryOp.decode (format : Leniency) : Data → Read BinaryOp :=
  readName format [("add", .add), ("sub", .sub), ("mul", .mul), ("div", .div), ("eq", .eq),
    ("not_eq", .notEq), ("lt", .lt), ("lt_eq", .ltEq), ("gt", .gt), ("gt_eq", .gtEq),
    ("and", .and), ("or", .or), ("like", .like)]

def SubqueryKind.decode (format : Leniency) : Data → Read SubqueryKind :=
  readName format [("scalar", .scalar), ("in", .membership), ("exists", .existence)]

def Literal.decode (format : Leniency) (d : Data) : Read Literal := do
  match ← d.readVariant with
  | ("null", content) => readEmpty format .null content
  | ("bool", content) => .bool <$> readContent readBool content
  | ("int", content) => .int <$> readContent readInt64 content
  | ("float", content) => .float <$> readContent readFloat content
  | ("str", content) => .str <$> readContent readText content
  | (name, _) => .error (.unknownVariant name)

mutual

def Expr.decodeWithin (format : Leniency) : Nat → Data → Read Expr
  | 0, _ => .error .tooDeep
  | depth + 1, d => do
    let (name, content) ← d.readVariant
    let fields (names : List String) := readContent (readVariantFields format names) content
    match name with
    | "column" => do
      let fields ← fields ["table", "name"]
      return .column (← fields.optional "table" readText) (← fields.required "name" readText)
    | "literal" => .literal <$> readContent (Literal.decode format) content
    | "star" => do
      let fields ← fields ["table"]
      return .star (← fields.optional "table" readText)
    | "func" => do
      let fields ← fields ["name", "args", "distinct"]
      return .func (← fields.required "name" readText)
        (← fields.withDefault "args" [] (readList (Expr.decodeWithin format depth)))
        (← fields.withDefault "distinct" false readBool)
    | "binary" => do
      let fields ← fields ["op", "left", "right"]
      return .binary (← fields.required "op" (BinaryOp.decode format))
        (← fields.required "left" (Expr.decodeWithin format depth))
        (← fields.required "right" (Expr.decodeWithin format depth))
    | "not" => .not <$> readContent (Expr.decodeWithin format depth) content
    | "is_null" => do
      let fields ← fields ["expr", "negated"]
      return .isNull (← fields.required "expr" (Expr.decodeWithin format depth))
        (← fields.withDefault "negated" false readBool)
    | "subquery" => .subquery <$> readContent (Query.decodeWithin format depth) content
    | "in_subquery" => do
      let fields ← fields ["expr", "subquery", "negated"]
      return .inSubquery (← fields.required "expr" (Expr.decodeWithin format depth))
        (← fields.required "subquery" (Query.decodeWithin format depth))
        (← fields.withDefault "negated" false readBool)
    | "exists" => do
      let fields ← fields ["subquery", "negated"]
      return .existsSubquery (← fields.required "subquery" (Query.decodeWithin format depth))
        (← fields.withDefault "negated" false readBool)
    | name => .error (.unknownVariant name)

def FromItem.decodeWithin (format : Leniency) : Nat → Data → Read FromItem
  | 0, _ => .error .tooDeep
  | depth + 1, d => do
    match ← d.readVariant with
    | ("table", content) => .table <$> readContent BaseTable.decode content
    | ("subquery", content) => .subquery <$> readContent (Query.decodeWithin format depth) content
    | ("join", content) => do
      let fields ← readContent (readFields ["left", "right", "kind", "on"]) content
      return .join (← fields.required "left" (FromItem.decodeWithin format depth))
        (← fields.required "right" (FromItem.decodeWithin format depth))
        (← fields.required "kind" (JoinKind.decode format))
        (← fields.optional "on" (Expr.decodeWithin format depth))
    | ("placeholder", content) => .placeholder <$> readContent PlaceholderRef.decode content
    | (name, _) => .error (.unknownVariant name)

def SelectItem.decodeWithin (format : Leniency) : Nat → Data → Read SelectItem
  | 0, _ => .error .tooDeep
  | depth + 1, d => do
    let fields ← d.readFields ["expr", "alias"]
    return ⟨← fields.required "expr" (Expr.decodeWithin format depth),
      ← fields.optional "alias" readText⟩

def OrderItem.decodeWithin (format : Leniency) : Nat → Data → Read OrderItem
  | 0, _ => .error .tooDeep
  | depth + 1, d => do
    let fields ← d.readFields ["expr", "descending"]
    return ⟨← fields.required "expr" (Expr.decodeWithin format depth),
      ← fields.withDefault "descending" false readBool⟩

def Query.decodeWithin (format : Leniency) : Nat → Data → Read Query
  | 0, _ => .error .tooDeep
  | depth + 1, d => do
    let fields ← d.readFields ["select_list", "from_list", "filter", "group_by", "having",
      "order_by", "limit", "alias"]
    return {
      selectList :=
        ← fields.required "select_list" (readList (SelectItem.decodeWithin format depth))
      fromList :=
        ← fields.withDefault "from_list" [] (readList (FromItem.decodeWithin format depth))
      filter := ← fields.optional "filter" (Expr.decodeWithin format depth)
      groupBy := ← fields.withDefault "group_by" [] (readList (Expr.decodeWithin format depth))
      having := ← fields.optional "having" (Expr.decodeWithin format depth)
      orderBy := ← fields.withDefault "order_by" [] (readList (OrderItem.decodeWithin format depth))
      limit := ← fields.optional "limit" fun d => UInt64.ofNat <$> d.readWord
      asName := ← fields.optional "alias" readText }

end

def Expr.decode (format : Leniency) (d : Data) : Read Expr := Expr.decodeWithin format d.depth d

def FromItem.decode (format : Leniency) (d : Data) : Read FromItem :=
  FromItem.decodeWithin format d.depth d

def OrderItem.decode (format : Leniency) (d : Data) : Read OrderItem :=
  OrderItem.decodeWithin format d.depth d

def Query.decode (format : Leniency) (d : Data) : Read Query := Query.decodeWithin format d.depth d

end ApproxQuery
