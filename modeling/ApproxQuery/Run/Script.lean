import ApproxQuery.Run.Engine

/-! A backend that follows a script: each rule applies to the statements that contain a text. -/
namespace ApproxQuery

inductive Reaction where
  | raise (level : CancelLevel)
  | fail (cause : BackendError)

structure Rule where
  contains : String
  reaction : Reaction

/-- What a scripted backend does, and what it answers to a SELECT when nothing fails. -/
structure Script where
  dialect : Sql.Dialect
  rules : List Rule
  answer : QueryResult

namespace Script

/-- A text occurs somewhere in a list of characters. -/
def occurs (part : List Char) : List Char → Bool
  | [] => part.isEmpty
  | c :: rest => part.isPrefixOf (c :: rest) || occurs part rest

def Rule.applies (r : Rule) (statement : String) : Bool :=
  occurs r.contains.toList statement.toList

/-- Applies rules in order, up to the first that fails. -/
def react (script : Script) (statement : String) (level : CancelLevel) : List Rule → Reply
  | [] =>
    if "SELECT".toList.isPrefixOf statement.toList then ⟨.ok script.answer, level⟩
    else ⟨.ok .empty, level⟩
  | r :: rest =>
    if Rule.applies r statement then
      match r.reaction with
      | .raise more => react script statement (level.raise more) rest
      | .fail cause => ⟨.error cause, level⟩
    else react script statement level rest

def backend (script : Script) : Backend where
  dialect := script.dialect
  reply statement := script.react statement .none script.rules

/-- A backend that only takes statements and answers nothing. -/
def silent (dialect : Sql.Dialect) : Script := ⟨dialect, [], .empty⟩

end Script

end ApproxQuery
