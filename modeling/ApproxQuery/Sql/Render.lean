import ApproxQuery.Query.Level
import ApproxQuery.Sql.Literal

/-! Queries as SQL text. Every operator is parenthesised, so precedence
never depends on the dialect. Rendering fails on an empty select list only. -/
namespace ApproxQuery

/-- Why a query has no SQL text. -/
inductive SqlError where
  | emptySelectList
deriving DecidableEq, Repr

def SqlError.message : SqlError → String
  | emptySelectList => "SQL generation error: empty select list"

namespace Sql

def table (d : Dialect) (name : TableName) : String :=
  d.ident name.schema ++ "." ++ d.ident name.table

/-- The alias clause, if there is an alias. -/
def aliased (d : Dialect) : Option String → String
  | some asName => " AS " ++ d.ident asName
  | none => ""

/-- Items separated by a comma and a blank. -/
def commas : List String → String
  | [] => ""
  | [s] => s
  | s :: rest => s ++ ", " ++ commas rest

def joinWords : JoinKind → String
  | .inner => " INNER JOIN "
  | .left => " LEFT JOIN "
  | .right => " RIGHT JOIN "
  | .full => " FULL JOIN "
  | .cross => " CROSS JOIN "

def negation (negated : Bool) : String := if negated then "NOT " else ""

mutual

def expr (d : Dialect) : Expr → Except SqlError String
  | .column (some t) name => .ok (d.ident t ++ "." ++ d.ident name)
  | .column none name => .ok (d.ident name)
  | .literal value => .ok (literal value)
  | .star (some t) => .ok (d.ident t ++ ".*")
  | .star none => .ok "*"
  | .func name args distinct => do
    let args ← exprs d args
    return lowerAscii name ++ "(" ++ (if distinct then "DISTINCT " else "") ++ commas args ++ ")"
  | .binary op left right => do
    return "(" ++ (← expr d left) ++ " " ++ op.symbol ++ " " ++ (← expr d right) ++ ")"
  | .not operand => do return "(NOT " ++ (← expr d operand) ++ ")"
  | .isNull operand negated => do
    return "(" ++ (← expr d operand) ++ " IS " ++ negation negated ++ "NULL)"
  | .subquery query => do return "(" ++ (← select d query) ++ ")"
  | .inSubquery operand query negated => do
    return "(" ++ (← expr d operand) ++ " " ++ negation negated
      ++ "IN (" ++ (← select d query) ++ "))"
  | .existsSubquery query negated => do
    return "(" ++ negation negated ++ "EXISTS (" ++ (← select d query) ++ "))"

def exprs (d : Dialect) : List Expr → Except SqlError (List String)
  | [] => .ok []
  | e :: rest => do return (← expr d e) :: (← exprs d rest)

def fromItem (d : Dialect) : FromItem → Except SqlError String
  | .table t => .ok (table d t.name ++ aliased d t.asName)
  | .placeholder ref => .ok (table d ref.table ++ " AS " ++ d.ident ref.asName)
  | .subquery query => do return "(" ++ (← select d query) ++ ")" ++ aliased d query.asName
  | .join left right kind on => do
    let left ← fromItem d left
    let right ← fromItem d right
    let on ← match on with
      | some e => (" ON " ++ ·) <$> expr d e
      | none => .ok ""
    return left ++ joinWords kind ++ right ++ on

def fromItems (d : Dialect) : List FromItem → Except SqlError (List String)
  | [] => .ok []
  | item :: rest => do return (← fromItem d item) :: (← fromItems d rest)

def selectItems (d : Dialect) : List SelectItem → Except SqlError (List String)
  | [] => .ok []
  | ⟨e, asName⟩ :: rest => do
    return ((← expr d e) ++ aliased d asName) :: (← selectItems d rest)

def orderItems (d : Dialect) : List OrderItem → Except SqlError (List String)
  | [] => .ok []
  | ⟨e, descending⟩ :: rest => do
    return ((← expr d e) ++ if descending then " DESC" else "") :: (← orderItems d rest)

/-- The SELECT statement of a query. Its own alias is written by what encloses it, if at all. -/
def select (d : Dialect) : Query → Except SqlError String
  | ⟨[], _, _, _, _, _, _, _⟩ => .error .emptySelectList
  | ⟨item :: items, sources, filter, groupBy, having, orderBy, limit, _⟩ => do
    let outputs ← selectItems d (item :: items)
    let sources ← fromItems d sources
    let filter ← match filter with
      | some e => (" WHERE " ++ ·) <$> expr d e
      | none => .ok ""
    let groupBy ← exprs d groupBy
    let having ← match having with
      | some e => (" HAVING " ++ ·) <$> expr d e
      | none => .ok ""
    let orderBy ← orderItems d orderBy
    return "SELECT " ++ commas outputs ++ clause " FROM " sources ++ filter
      ++ clause " GROUP BY " groupBy ++ having ++ clause " ORDER BY " orderBy
      ++ (match limit with
        | some n => " LIMIT " ++ Decimal.digitText n.toNat
        | none => "")
where
  /-- A clause is left out when it has no items. -/
  clause (words : String) : List String → String
    | [] => ""
    | items => words ++ commas items

end

end Sql

end ApproxQuery
