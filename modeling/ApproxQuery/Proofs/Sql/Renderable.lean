import ApproxQuery.Proofs.Query.Levels
import ApproxQuery.Proofs.Sql.Rendering

/-! Which queries have a text: those that select something at every level. The renderer and the walk
over levels reach the same queries. -/
namespace ApproxQuery

namespace Sql

variable {d : Dialect}

theorem answers_condition (words : String) (e : Option Expr) :
    Answers (condition d words e) ↔ ∀ own ∈ e, Answers (expr d own) := by
  cases e with
  | none => exact iff_of_true (answers_ok _) nofun
  | some e =>
    rw [condition, answers_map]
    simp

/-- An expression is rendered when the queries in its slots are. -/
theorem answers_expr {e : Expr} : Answers (expr d e) ↔ ∀ slot ∈ e.slots, Answers (select d slot.2) := by
  refine ExprRule.expr (E := fun e => Answers (expr d e) ↔ ∀ slot ∈ e.slots, Answers (select d slot.2)) ?_ e
  constructor
  case column =>
    intro table name
    cases table <;> exact iff_of_true ⟨_, by rw [expr]⟩ (List.forall_mem_nil _)
  case literal => exact fun value => iff_of_true ⟨_, by rw [expr]⟩ (List.forall_mem_nil _)
  case star =>
    intro table
    cases table <;> exact iff_of_true ⟨_, by rw [expr]⟩ (List.forall_mem_nil _)
  case func =>
    intro name args distinct ih
    rw [expr, answers_map, exprs_eq, answers_mapM, Expr.slots, Expr.slotsIn_eq]
    simp only [List.mem_flatMap, forall_exists_index, and_imp]
    constructor
    · exact fun each slot e inArgs inSlots => (ih e inArgs).mp (each e inArgs) slot inSlots
    · exact fun each e inArgs => (ih e inArgs).mpr fun slot inSlots => each slot e inArgs inSlots
  case binary =>
    intro op left right ihLeft ihRight
    rw [expr, Expr.slots, List.forall_mem_append, ← ihLeft, ← ihRight]
    exact answers_bind fun s => answers_map _
  case not =>
    intro operand ih
    rw [expr, answers_map, ih, Expr.slots]
  case isNull =>
    intro operand negated ih
    rw [expr, answers_map, ih, Expr.slots]
  case subquery =>
    intro query
    rw [expr, answers_map, Expr.slots, List.forall_mem_singleton]
  case inSubquery =>
    intro operand query negated ih
    rw [expr, Expr.slots, List.forall_mem_append, ← ih, List.forall_mem_singleton]
    exact answers_bind fun s => answers_map _
  case existsSubquery =>
    intro query negated
    rw [expr, answers_map, Expr.slots, List.forall_mem_singleton]

/-- An item is rendered when the queries that it holds are. -/
theorem answers_fromItem {item : FromItem} :
    Answers (fromItem d item) ↔ ∀ sub ∈ item.listed, Answers (select d sub) := by
  induction item using FromItem.treeInduction with
  | table t => exact iff_of_true ⟨_, by rw [fromItem]⟩ (List.forall_mem_nil _)
  | subquery q => rw [fromItem, answers_map, FromItem.listed, List.forall_mem_singleton]
  | join left right kind on ihLeft ihRight =>
    have inOn : (∀ e ∈ on, Answers (expr d e))
        ↔ ∀ sub ∈ (on.toList.flatMap Expr.slots).map Prod.snd, Answers (select d sub) := by
      simp only [answers_expr, List.forall_mem_map, List.mem_flatMap, Option.mem_toList, Option.mem_def,
        forall_exists_index, and_imp]
      exact ⟨fun each slot e own inSlots => each e own slot inSlots,
        fun each e own slot inSlots => each slot e own inSlots⟩
    rw [fromItem_join, FromItem.listed, List.forall_mem_append, List.forall_mem_append, ← ihLeft, ← ihRight,
      ← inOn, ← answers_condition " ON ", and_assoc]
    exact answers_bind fun s => answers_bind fun s' => answers_map _
  | placeholder ref => exact iff_of_true ⟨_, by rw [fromItem]⟩ (List.forall_mem_nil _)

/-- A level is rendered when it selects something and the queries that it holds are rendered. -/
theorem answers_select {q : Query} : Answers (select d q) ↔ q.selectList ≠ []
    ∧ ∀ sub ∈ q.held, Answers (select d sub) := by
  by_cases none : q.selectList = []
  · rw [select_of_empty d none]
    exact iff_of_false nofun fun both => both.1 none
  have items : (∀ item ∈ q.fromList, Answers (fromItem d item)) ↔ ∀ sub ∈ q.listed, Answers (select d sub) := by
    simp only [answers_fromItem, Query.listed, List.mem_flatMap, forall_exists_index, and_imp]
    exact ⟨fun each sub item inList held => each item inList sub held,
      fun each item inList sub held => each sub item inList held⟩
  have exprs : (∀ e ∈ q.exprs, Answers (expr d e)) ↔ ∀ sub ∈ q.slotted, Answers (select d sub) := by
    simp only [answers_expr, Query.mem_slotted]
    constructor
    · rintro each _ ⟨e, own, slot, inSlots, rfl⟩
      exact each e own slot inSlots
    · exact fun each e own slot inSlots => each slot.2 ⟨e, own, slot, inSlots, rfl⟩
  have clauses : Answers (select d q) ↔ (∀ item ∈ q.selectList, Answers (selectItem d item))
      ∧ (∀ item ∈ q.fromList, Answers (fromItem d item)) ∧ (∀ e ∈ q.filter, Answers (expr d e))
      ∧ (∀ e ∈ q.groupBy, Answers (expr d e)) ∧ (∀ e ∈ q.having, Answers (expr d e))
      ∧ ∀ item ∈ q.orderBy, Answers (orderItem d item) := by
    rw [select_eq d none, ← answers_condition " WHERE ", ← answers_condition " HAVING "]
    simp only [← answers_mapM]
    exact answers_bind fun _ => answers_bind fun _ => answers_bind fun _ => answers_bind fun _ =>
      answers_bind fun _ => answers_map _
  have selected (item) : Answers (selectItem d item) ↔ Answers (expr d item.expr) := answers_map _
  have sorted (item) : Answers (orderItem d item) ↔ Answers (expr d item.expr) := answers_map _
  simp only [clauses, selected, sorted, items, Query.mem_held, or_imp, forall_and, ← exprs,
    Query.forall_mem_exprs]
  tauto

/-- Rendering fails exactly on queries that select nothing at one of their levels, in every dialect
alike. -/
theorem select_fails_iff (q : Query) :
    (∀ d, (∃ error, select d q = .error error) ↔ ∃ level ∈ q.levels, level.selectList = [])
      ∧ ∀ d d', (∃ error, select d q = .error error) ↔ ∃ error, select d' q = .error error := by
  have answers (d) : Answers (select d q) ↔ ∀ level ∈ q.levels, level.selectList ≠ [] := by
    induction q using Query.heldInduction with
    | level q ih =>
      rw [answers_select]
      constructor
      · rintro ⟨some, each⟩ level member
        rcases Query.mem_levels.mp member with rfl | ⟨sub, place, below⟩
        · exact some
        · have held := Query.mem_held.mpr place
          exact (ih sub held).mp (each sub held) level below
      · intro each
        refine ⟨each q q.self_mem_levels, fun sub held => (ih sub held).mpr fun level below => ?_⟩
        exact each level (Query.mem_levels.mpr (.inr ⟨sub, Query.mem_held.mp held, below⟩))
  have fails (d) : (∃ error, select d q = .error error) ↔ ∃ level ∈ q.levels, level.selectList = [] := by
    rw [← not_answers_iff, answers]
    push Not
    rfl
  exact ⟨fails, fun d d' => (fails d).trans (fails d').symm⟩

end Sql

end ApproxQuery
