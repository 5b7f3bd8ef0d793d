import ApproxQuery.Data.Basic
import ApproxQuery.Data.CoreSchema

/-! Reads typed values from data. A record type may also be given as the list of its
fields in order; a sum type is a name, or a record whose one key is the name. -/
namespace ApproxQuery

/-- Why data does not have the wanted type. -/
inductive ReadError where
  | unexpected (wanted : String)
  | missing (field : String)
  | repeated (field : String)
  | unknownVariant (name : String)
  | outOfRange
  | tooDeep
deriving Repr

abbrev Read := Except ReadError

/-- Where the two text formats differ in what they accept. -/
structure Leniency where
  /-- A variant without content may be given as a record whose value is null. -/
  emptyVariantAsRecord : Bool
  /-- The fields of a variant may be given as a list. -/
  variantFieldsAsList : Bool

namespace Data

def json : Leniency := ⟨true, false⟩
def yaml : Leniency := ⟨false, true⟩

def readText : Data → Read String
  | .str text => .ok text
  | .scalar text _ _ => .ok text
  | _ => .error (.unexpected "text")

/-- The text of a scalar that may stand for a value of the tagged type. -/
def typedText (tag : Tag) : Data → Option String
  | .scalar text .plain _ => some text
  | .scalar text .literal given => if given = some tag then some text else none
  | _ => none

def readBool : Data → Read Bool
  | .bool value => .ok value
  | d => match (d.typedText CoreSchema.boolTag).bind CoreSchema.bool? with
    | some value => .ok value
    | none => .error (.unexpected "Boolean")

/-- A natural number below a bound. -/
def readNatBelow (bound : Nat) (d : Data) : Read Nat :=
  let value : Option Int := match d with
    | .int n => some n
    | d => (d.typedText CoreSchema.intTag).bind fun t =>
      (CoreSchema.natural? t.toList).map Int.ofNat
  match value with
  | some n => if 0 ≤ n && n < bound then .ok n.toNat else .error .outOfRange
  | none => .error (.unexpected "integer")

/-- An integer of 64 bits with sign. -/
def readInt64 (d : Data) : Read Int64 :=
  let value : Option Int := match d with
    | .int n => some n
    | d => (d.typedText CoreSchema.intTag).bind fun t => CoreSchema.integer? t.toList
  match value with
  | some n =>
    if Int64.minValue.toInt ≤ n && n ≤ Int64.maxValue.toInt then .ok (Int64.ofInt n)
    else .error .outOfRange
  | none => .error (.unexpected "integer")

/-- A double; an integer is taken as the nearest one. -/
def readFloat : Data → Read Float
  | .float value => .ok value
  | .int n => .ok (Decimal.nearestOfInt n)
  | d => match (d.typedText CoreSchema.floatTag).bind CoreSchema.float? with
    | some value => .ok value
    | none => .error (.unexpected "number")

/-- Whether an optional value is absent. An unquoted empty or null text is, unless a tag says
that it is something else. -/
def isAbsent : Data → Read Bool
  | .null => .ok true
  | .scalar text .plain none => .ok (text.isEmpty || CoreSchema.isNull text)
  | .scalar text .plain (some tag) =>
    if tag = CoreSchema.nullTag then
      if CoreSchema.isNull text then .ok true else .error (.unexpected "null")
    else .ok false
  | _ => .ok false

def readOption {α : Type} (read : Data → Read α) (d : Data) : Read (Option α) := do
  if ← d.isAbsent then return none else return some (← read d)

/-- An unquoted empty text stands for an empty collection. -/
def readList {α : Type} (read : Data → Read α) : Data → Read (List α)
  | .list items => items.mapM read
  | .tagged (.list items) => items.mapM read
  | .scalar "" .plain _ => .ok []
  | _ => .error (.unexpected "list")

/-- The fields present of a record type, each at most once. -/
abbrev Fields := List (String × Data)

/-- Keeps the fields that the record type names; one of them twice is an error. -/
def selectFields (names : List String) : List (String × Data) → Read Fields
  | [] => .ok []
  | (key, d) :: rest => do
    let kept ← selectFields names rest
    if names.contains key then
      if kept.any (fun field => field.1 = key) then .error (.repeated key)
      else return (key, d) :: kept
    else return kept

def recordFields (names : List String) : Data → Read Fields
  | .record fields => selectFields names fields
  | .scalar "" .plain _ => .ok []
  | _ => .error (.unexpected "record")

def listedFields (names : List String) : Data → Option (Read Fields)
  | .list items =>
    some (if items.length ≤ names.length then .ok (names.zip items) else .error .outOfRange)
  | _ => none

/-- The content of a collection, whatever its tag. -/
def untagged : Data → Data
  | .tagged content => content
  | d => d

/-- The fields of a record type. -/
def readFields (names : List String) (d : Data) : Read Fields :=
  (listedFields names d.untagged).getD (recordFields names d.untagged)

/-- The fields of a variant. -/
def readVariantFields (format : Leniency) (names : List String) (d : Data) : Read Fields :=
  if format.variantFieldsAsList then readFields names d else recordFields names d.untagged

namespace Fields

variable {α : Type}

/-- A field that has to be there. -/
def required (fields : Fields) (name : String) (read : Data → Read α) : Read α :=
  match fields.lookup name with
  | some d => read d
  | none => .error (.missing name)

/-- A field that may be missing or null. -/
def optional (fields : Fields) (name : String) (read : Data → Read α) : Read (Option α) :=
  match fields.lookup name with
  | some d => d.readOption read
  | none => .ok none

/-- A field that may be missing, but not null. -/
def withDefault (fields : Fields) (name : String) (default : α) (read : Data → Read α) : Read α :=
  match fields.lookup name with
  | some d => read d
  | none => .ok default

end Fields

/-- The name of a variant written as a scalar. Null, Booleans and numbers are no names, and types
of an application have none. A tag hides that an unquoted text means null, unless it is marked. -/
def variantName (text : String) (style : ScalarStyle) (tag : Option Tag) : Option String :=
  let bare := tag.all Tag.isMarked && style = .plain
  if tag.any fun t => t.isApplication || CoreSchema.tags.contains t then none
  else if bare && (text.isEmpty || CoreSchema.isNull text) then none
  else some text

/-- The variant of a sum type, with its content if there is any. -/
def readVariant : Data → Read (String × Option Data)
  | .str name => .ok (name, none)
  | .record [(name, content)] => .ok (name, some content)
  | .scalar text style tag =>
    match variantName text style tag with
    | some name => .ok (name, none)
    | none => .error (.unexpected "variant")
  | _ => .error (.unexpected "variant")

/-- A variant without content. -/
def readEmpty {α : Type} (format : Leniency) (value : α) : Option Data → Read α
  | none => .ok value
  | some .null => if format.emptyVariantAsRecord then .ok value else .error (.unexpected "name")
  | some _ => .error (.unexpected "name")

/-- A variant with content. -/
def readContent {α : Type} (read : Data → Read α) : Option Data → Read α
  | some d => read d
  | none => .error (.unexpected "content")

/-- A sum type all of whose variants are without content. -/
def readName {α : Type} (format : Leniency) (names : List (String × α)) (d : Data) : Read α := do
  let (name, content) ← d.readVariant
  match names.lookup name with
  | some value => readEmpty format value content
  | none => .error (.unknownVariant name)

end Data

end ApproxQuery
