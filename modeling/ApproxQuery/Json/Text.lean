import ApproxQuery.Data.Basic
import ApproxQuery.Decimal.Layout

/-! Canonical JSON text: no blanks, fields in the order given, the fewest escapes. -/
namespace ApproxQuery.Json

/-- Numbers are positional for exponents from -5 to 15, and have a point or an exponent. -/
def layout : Decimal.Layout where
  positional leading := -5 ≤ leading && leading ≤ 15
  pointZero := true
  plus := "+"
  tie := .even
  nan := "null"
  infinite := "null"

def hexDigit (n : Nat) : Char := (Nat.toDigits 16 n).headD '0'

/-- Only quotes, backslashes and control characters below the blank are escaped. -/
def escape (c : Char) : List Char :=
  if c = '\x22' then ['\\', '\x22']
  else if c = '\\' then ['\\', '\\']
  else if c = '\n' then ['\\', 'n']
  else if c = '\r' then ['\\', 'r']
  else if c = '\t' then ['\\', 't']
  else if c.toNat = 8 then ['\\', 'b']
  else if c.toNat = 12 then ['\\', 'f']
  else if c.toNat < 32 then
    ['\\', 'u', '0', '0', hexDigit (c.toNat / 16), hexDigit (c.toNat % 16)]
  else [c]

def quoted (s : String) : String :=
  String.ofList ('\x22' :: (s.toList.flatMap escape ++ ['\x22']))

/-- A float that is not finite has no number and is written as null. -/
def float (x : Float) : String := if x.isFinite then layout.write x else "null"

def int (n : Int) : String := (if n < 0 then "-" else "") ++ Decimal.digitText n.natAbs

def commas : List String → String
  | [] => ""
  | [s] => s
  | s :: rest => s ++ "," ++ commas rest

mutual

def text : Data → String
  | .null => "null"
  | .bool true => "true"
  | .bool false => "false"
  | .int n => int n
  | .float x => float x
  | .str s => quoted s
  | .list items => "[" ++ commas (texts items) ++ "]"
  | .record fields => "\x7b" ++ commas (fieldTexts fields) ++ "\x7d"
  | .scalar s _ _ => quoted s
  | .tagged content => text content
  | .unusable => "null"

def texts : List Data → List String
  | [] => []
  | d :: rest => text d :: texts rest

def fieldTexts : List (String × Data) → List String
  | [] => []
  | (key, d) :: rest => (quoted key ++ ":" ++ text d) :: fieldTexts rest

end

end ApproxQuery.Json
