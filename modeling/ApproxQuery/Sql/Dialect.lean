/-! SQL dialects differ only in how they quote identifiers. -/
namespace ApproxQuery.Sql

inductive Dialect where
  | ansi | hive
deriving DecidableEq, Repr, Inhabited

def Dialect.name : Dialect → String
  | ansi => "ansi"
  | hive => "hive"

/-- A double quote, or a grave accent. -/
def Dialect.quoteChar : Dialect → Char
  | ansi => '\x22'
  | hive => '\x60'

/-- Writes a quote character inside the text twice. -/
def doubled (quote : Char) : List Char → List Char
  | [] => []
  | c :: rest => if c = quote then quote :: quote :: doubled quote rest else c :: doubled quote rest

/-- Encloses a text in quote characters. -/
def enclose (quote : Char) (text : String) : String :=
  String.ofList (quote :: (doubled quote text.toList ++ [quote]))

def Dialect.ident (d : Dialect) (name : String) : String := enclose d.quoteChar name

end ApproxQuery.Sql
