import ApproxQuery.Data.Tag
import ApproxQuery.Decimal.Reading

/-! What untagged plain scalars mean: null, Booleans, integers in four radixes, and numbers
in decimal notation. Text that has one of these meanings may still be wanted as text. -/
namespace ApproxQuery.CoreSchema

def nullTag : Tag := .ofString "tag:yaml.org,2002:null"
def boolTag : Tag := .ofString "tag:yaml.org,2002:bool"
def intTag : Tag := .ofString "tag:yaml.org,2002:int"
def floatTag : Tag := .ofString "tag:yaml.org,2002:float"

/-- The tags that fix which of the meanings a scalar has. -/
def tags : List Tag := [nullTag, boolTag, intTag, floatTag]

def isNull (text : String) : Bool := ["null", "Null", "NULL", "~"].contains text

def bool? (text : String) : Option Bool :=
  if ["true", "True", "TRUE"].contains text then some true
  else if ["false", "False", "FALSE"].contains text then some false
  else none

/-- The value of a digit in radixes up to sixteen. -/
def digit? (c : Char) : Option Nat :=
  if '0' ≤ c && c ≤ '9' then some (c.toNat - '0'.toNat)
  else if 'a' ≤ c && c ≤ 'f' then some (c.toNat - 'a'.toNat + 10)
  else if 'A' ≤ c && c ≤ 'F' then some (c.toNat - 'A'.toNat + 10)
  else none

/-- One digit more, in the radix. -/
def pushDigit (radix : Nat) (value : Nat) (c : Char) : Option Nat :=
  match digit? c with
  | some d => if d < radix then some (value * radix + d) else none
  | none => none

/-- One or more digits of the radix, and nothing else. -/
def digits? (radix : Nat) (text : List Char) : Option Nat :=
  if text.isEmpty then none else text.foldlM (pushDigit radix) 0

/-- The radix that a leading `0x`, `0o` or `0b` announces, with the digits after it. -/
def radixed : List Char → Option (Nat × List Char)
  | '0' :: 'x' :: rest => some (16, rest)
  | '0' :: 'o' :: rest => some (8, rest)
  | '0' :: 'b' :: rest => some (2, rest)
  | _ => none

/-- Without one leading sign, several decimal digits that begin with a zero: text, not a number. -/
def isPaddedDigits (text : List Char) : Bool :=
  let digits := match text with
    | '-' :: rest => rest
    | '+' :: rest => rest
    | all => all
  match digits with
  | '0' :: next :: rest => (next :: rest).all Char.isDigit
  | _ => false

/-- An integer without a minus sign; one plus sign is allowed. -/
def natural? (text : List Char) : Option Nat :=
  let unsigned := match text with
    | '+' :: rest => rest
    | all => all
  match radixed unsigned with
  | some (radix, rest) => digits? radix rest
  | none => if isPaddedDigits text then none else digits? 10 unsigned

/-- An integer with or without one sign. -/
def integer? (text : List Char) : Option Int :=
  match text with
  | '-' :: rest =>
    match radixed rest with
    | some (radix, rest) => (digits? radix rest).map fun n => -(n : Int)
    | none => if isPaddedDigits text then none else (digits? 10 rest).map fun n => -(n : Int)
  | _ => (natural? text).map Int.ofNat

/-- Decimal text with at most one sign, as the nearest double. -/
def decimal? (text : List Char) : Option Decimal.Written :=
  match text with
  | '+' :: rest => Decimal.readLoose? rest
  | '-' :: rest => (Decimal.readLoose? rest).map fun w => { w with negative := true }
  | all => Decimal.readLoose? all

/-- A double. Decimal text that is too large to be finite has no meaning as a number. -/
def float? (text : String) : Option Float :=
  if [".inf", ".Inf", ".INF", "+.inf", "+.Inf", "+.INF"].contains text then some (1.0 / 0.0)
  else if ["-.inf", "-.Inf", "-.INF"].contains text then some (-1.0 / 0.0)
  else if [".nan", ".NaN", ".NAN"].contains text then some (0.0 / 0.0)
  else match decimal? text.toList with
    | some written => if written.nearest.isFinite then some written.nearest else none
    | none => none

end ApproxQuery.CoreSchema
