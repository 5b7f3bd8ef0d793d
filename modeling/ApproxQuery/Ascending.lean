/-! Finite sets as ascending lists without repetition, so that equal sets are equal lists. -/
namespace ApproxQuery

variable {α : Type} [LT α] [DecidableLT α] [DecidableEq α]

/-- Adds a value to an ascending list at its place, unless it is there already. -/
def insertAscending (a : α) : List α → List α
  | [] => [a]
  | b :: rest =>
    if a = b then b :: rest
    else if a < b then a :: b :: rest
    else b :: insertAscending a rest

/-- The values of a list, each once, in ascending order. -/
def ascending (values : List α) : List α := values.foldr insertAscending []

theorem mem_insertAscending {a x : α} {values : List α} :
    x ∈ insertAscending a values ↔ x = a ∨ x ∈ values := by
  induction values with
  | nil => simp [insertAscending]
  | cons b rest ih =>
    unfold insertAscending
    split
    · rename_i same; simp [same]
    · split
      · simp
      · simp [ih, or_left_comm]

theorem mem_ascending {x : α} {values : List α} : x ∈ ascending values ↔ x ∈ values := by
  induction values with
  | nil => simp [ascending]
  | cons b rest ih =>
    have step : ascending (b :: rest) = insertAscending b (ascending rest) := rfl
    rw [step, mem_insertAscending, ih, List.mem_cons]

end ApproxQuery
