import ApproxQuery.Query.Decoding
import ApproxQuery.Query.Encoding
import ApproxQuery.Sql.Render

/-! The statements that a backend is sent. -/
namespace ApproxQuery

inductive Statement where
  | select (query : Query)
  | createTableAs (table : TableName) (query : Query)
  | dropTable (table : TableName) (ifExists : Bool)
deriving Inhabited

namespace Statement

/-- The text of a statement. -/
def sql (d : Sql.Dialect) : Statement → Except SqlError String
  | select query => Sql.select d query
  | createTableAs table query => do
    return "CREATE TABLE " ++ Sql.table d table ++ " AS " ++ (← Sql.select d query)
  | dropTable table ifExists =>
    .ok ("DROP TABLE " ++ (if ifExists then "IF EXISTS " else "") ++ Sql.table d table)

def encode : Statement → Data
  | select query => Data.variant "select" query.encode
  | createTableAs table query =>
    Data.variant "create_table_as" (.record [("table", table.encode), ("query", query.encode)])
  | dropTable table ifExists =>
    Data.variant "drop_table" (.record [("table", table.encode), ("if_exists", .bool ifExists)])

def decode (format : Leniency) (d : Data) : Read Statement := do
  match ← d.readVariant with
  | ("select", content) => .select <$> Data.readContent (Query.decode format) content
  | ("create_table_as", content) =>
    let fields ← Data.readContent (Data.readVariantFields format ["table", "query"]) content
    return .createTableAs (← fields.required "table" TableName.decode)
      (← fields.required "query" (Query.decode format))
  | ("drop_table", content) =>
    let fields ← Data.readContent (Data.readVariantFields format ["table", "if_exists"]) content
    return .dropTable (← fields.required "table" TableName.decode)
      (← fields.required "if_exists" Data.readBool)
  | (name, _) => .error (.unknownVariant name)

end Statement

end ApproxQuery
