import ApproxQuery.Id

/-! The query model: table names, expressions, from-list items and select queries.
A placeholder item stands for the stored result of another plan node. -/
namespace ApproxQuery

/-- A table named inside a schema. -/
structure TableName where
  schema : String
  table : String
deriving DecidableEq, Repr, Inhabited

/-- Schemas compare first, then tables, both by code points. -/
instance : LT TableName :=
  ⟨fun a b => a.schema < b.schema ∨ a.schema = b.schema ∧ a.table < b.table⟩

instance (a b : TableName) : Decidable (a < b) :=
  inferInstanceAs (Decidable (a.schema < b.schema ∨ a.schema = b.schema ∧ a.table < b.table))

/-- The dotted spelling used in messages and listings. -/
def TableName.dotted (name : TableName) : String := s!"{name.schema}.{name.table}"

/-- A stored table in a from-list. -/
structure BaseTable where
  schema : String
  table : String
  asName : Option String
deriving DecidableEq, Repr, Inhabited

def BaseTable.name (t : BaseTable) : TableName := ⟨t.schema, t.table⟩

/-- Column references use the alias, or the bare table name when there is none. -/
def BaseTable.referenceName (t : BaseTable) : String := t.asName.getD t.table

/-- The stored result of a node, read under an alias. -/
structure PlaceholderRef where
  node : NodeId
  table : TableName
  asName : String
deriving DecidableEq, Repr, Inhabited

inductive JoinKind where
  | inner | left | right | full | cross
deriving DecidableEq, Repr, Inhabited

inductive Literal where
  | null
  | bool (value : Bool)
  | int (value : Int64)
  | float (value : Float)
  | str (value : String)
deriving Inhabited

inductive BinaryOp where
  | add | sub | mul | div
  | eq | notEq | lt | ltEq | gt | gtEq
  | and | or | like
deriving DecidableEq, Repr, Inhabited

def BinaryOp.symbol : BinaryOp → String
  | add => "+" | sub => "-" | mul => "*" | div => "/"
  | eq => "=" | notEq => "<>" | lt => "<" | ltEq => "<=" | gt => ">" | gtEq => ">="
  | and => "AND" | or => "OR" | like => "LIKE"

/-- How a sub-query is consumed by the expression around it. -/
inductive SubqueryKind where
  | scalar | membership | existence
deriving DecidableEq, Repr, Inhabited

mutual

/-- Scalar expressions; three forms hold a sub-query. -/
inductive Expr where
  | column (table : Option String) (name : String)
  | literal (value : Literal)
  | star (table : Option String)
  | func (name : String) (args : List Expr) (distinct : Bool)
  | binary (op : BinaryOp) (left right : Expr)
  | not (operand : Expr)
  | isNull (operand : Expr) (negated : Bool)
  | subquery (query : Query)
  | inSubquery (operand : Expr) (query : Query) (negated : Bool)
  | existsSubquery (query : Query) (negated : Bool)

/-- Sources of rows. A derived table carries its alias in the query itself. -/
inductive FromItem where
  | table (table : BaseTable)
  | subquery (query : Query)
  | join (left right : FromItem) (kind : JoinKind) (on : Option Expr)
  | placeholder (ref : PlaceholderRef)

/-- An output column. -/
structure SelectItem where
  expr : Expr
  asName : Option String

/-- A sort key. -/
structure OrderItem where
  expr : Expr
  descending : Bool

/-- One query level; the queries nested in its clauses are levels of their own. -/
structure Query where
  selectList : List SelectItem
  fromList : List FromItem
  filter : Option Expr
  groupBy : List Expr
  having : Option Expr
  orderBy : List OrderItem
  limit : Option UInt64
  asName : Option String

end

instance : Inhabited Expr := ⟨.literal .null⟩
instance : Inhabited Query := ⟨⟨[], [], none, [], none, [], none, none⟩⟩
instance : Inhabited FromItem := ⟨.subquery default⟩

/-- Conjunction. -/
def Expr.and (left right : Expr) : Expr := .binary .and left right

/-- `SELECT * FROM item`. -/
def Query.selectAll (item : FromItem) : Query :=
  ⟨[⟨.star none, none⟩], [item], none, [], none, [], none, none⟩

/-- Conjoins a predicate after the filter that is there. -/
def Query.addFilter (q : Query) (predicate : Expr) : Query :=
  { q with filter := some (match q.filter with
      | some existing => existing.and predicate
      | none => predicate) }

end ApproxQuery
