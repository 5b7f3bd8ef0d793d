import ApproxQuery.Data.Tag

/-! Values as a text format gives them, before any type is asked of them. -/
namespace ApproxQuery

/-- How a scalar of a YAML text was written. -/
inductive ScalarStyle where
  | plain | singleQuoted | doubleQuoted | literal | folded
deriving DecidableEq, Repr, Inhabited

/-- A value of a text format. JSON gives the first seven forms. YAML gives `scalar` for every
leaf, since the meaning of its text depends on what is wanted there. -/
inductive Data where
  | null
  | bool (value : Bool)
  | int (value : Int)
  | float (value : Float)
  | str (text : String)
  | list (items : List Data)
  | record (fields : List (String × Data))
  | scalar (text : String) (style : ScalarStyle) (tag : Option Tag)
  /-- A collection that carries an application tag. -/
  | tagged (content : Data)
  /-- Content that no type can be read from. -/
  | unusable
deriving Inhabited

namespace Data

mutual

/-- Levels of nesting, a leaf counting as one. -/
def depth : Data → Nat
  | .list items => depthOfItems items + 1
  | .record fields => depthOfFields fields + 1
  | .tagged content => content.depth + 1
  | _ => 1

def depthOfItems : List Data → Nat
  | [] => 0
  | d :: rest => max d.depth (depthOfItems rest)

def depthOfFields : List (String × Data) → Nat
  | [] => 0
  | (_, d) :: rest => max d.depth (depthOfFields rest)

end

end Data

end ApproxQuery
