/-! Tags, which say what type a node has. -/
namespace ApproxQuery

/-- A tag. Percent escapes may put any bytes into it. -/
structure Tag where
  bytes : List UInt8
deriving DecidableEq, Repr, Inhabited

namespace Tag

def ofString (text : String) : Tag := ⟨text.toUTF8.data.toList⟩

/-- An exclamation mark comes first. -/
def isMarked (t : Tag) : Bool := t.bytes.head? = some 0x21

/-- A marked tag names a type of an application, if it can be read as text. -/
def isApplication (t : Tag) : Bool :=
  t.isMarked && (String.fromUTF8? ⟨t.bytes.toArray⟩).isSome

end Tag

end ApproxQuery
