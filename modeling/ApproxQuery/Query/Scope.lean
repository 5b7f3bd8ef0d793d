import ApproxQuery.Query.Level

/-! Name scopes. A qualifier is free in a query when it occurs at some level of it and no
level from there outwards, up to the query, binds it. -/
namespace ApproxQuery

mutual

/-- Qualifiers that no enclosing level inside the query binds, one for each occurrence. -/
def Query.freeRefs : Query → List String
  | ⟨selectList, fromList, filter, groupBy, having, orderBy, _, _⟩ =>
    (SelectItem.freeRefsIn selectList
      ++ (match filter with | some e => e.freeRefs | none => [])
      ++ Expr.freeRefsIn groupBy
      ++ (match having with | some e => e.freeRefs | none => [])
      ++ OrderItem.freeRefsIn orderBy
      ++ FromItem.freeRefsIn fromList).filter
        fun name => !(fromList.flatMap FromItem.boundNames).contains name

/-- Qualifiers an expression leaves to the level it stands in. -/
def Expr.freeRefs : Expr → List String
  | .column table _ => table.toList
  | .star table => table.toList
  | .literal _ => []
  | .func _ args _ => Expr.freeRefsIn args
  | .binary _ left right => left.freeRefs ++ right.freeRefs
  | .not operand => operand.freeRefs
  | .isNull operand _ => operand.freeRefs
  | .subquery query => query.freeRefs
  | .inSubquery operand query _ => operand.freeRefs ++ query.freeRefs
  | .existsSubquery query _ => query.freeRefs

/-- Qualifiers of derived tables and `ON` conditions left to the level the item stands in. -/
def FromItem.freeRefs : FromItem → List String
  | .subquery query => query.freeRefs
  | .join left right _ on =>
    left.freeRefs ++ right.freeRefs ++ (match on with | some e => e.freeRefs | none => [])
  | .table _ => []
  | .placeholder _ => []

def Expr.freeRefsIn : List Expr → List String
  | [] => []
  | e :: rest => e.freeRefs ++ Expr.freeRefsIn rest

def SelectItem.freeRefsIn : List SelectItem → List String
  | [] => []
  | ⟨e, _⟩ :: rest => e.freeRefs ++ SelectItem.freeRefsIn rest

def OrderItem.freeRefsIn : List OrderItem → List String
  | [] => []
  | ⟨e, _⟩ :: rest => e.freeRefs ++ OrderItem.freeRefsIn rest

def FromItem.freeRefsIn : List FromItem → List String
  | [] => []
  | item :: rest => item.freeRefs ++ FromItem.freeRefsIn rest

end

namespace Query

/-- The query refers to a name that only an enclosing query can bind. -/
def isCorrelated (q : Query) : Bool := !q.freeRefs.isEmpty

/-- The free qualifiers as a set. -/
def freeNames (q : Query) : List String := ascending q.freeRefs

end Query

end ApproxQuery
