import ApproxQuery.Plan.Validation
import ApproxQuery.Proofs.Answers
import ApproxQuery.Proofs.Query.Places

/-! Which queries pass the checks that come before decomposition, one level at a time. -/
namespace ApproxQuery

theorem Expr.holdsAggregate_eq_false {e : Expr} : e.holdsAggregate = false
    ↔ ∀ slot ∈ e.slots, slot.2.isCorrelated = false → slot.2.isAggregate = false := by
  simp only [holdsAggregate, List.any_eq_false, Bool.and_eq_true, Bool.not_eq_true', not_and',
    Bool.not_eq_true]

theorem Clause.check_eq_ok {clause : Clause} {es : List Expr} : clause.check es = .ok ()
    ↔ ∀ sub ∈ (es.flatMap Expr.slots).map Prod.snd, sub.isCorrelated = false → sub.isAggregate = false := by
  have clean : clause.check es = .ok () ↔ ∀ e ∈ es, e.holdsAggregate = false := by
    unfold check
    split
    · rename_i held
      refine iff_of_false nofun fun none => ?_
      obtain ⟨e, member, holds⟩ := List.any_eq_true.mp held
      cases holds.symm.trans (none e member)
    · rename_i free
      refine iff_of_true rfl fun e member => ?_
      exact Bool.eq_false_iff.mpr fun holds => free (List.any_eq_true.mpr ⟨e, member, holds⟩)
  rw [clean]
  simp only [Expr.holdsAggregate_eq_false, Query.mem_slots]
  constructor
  · rintro none sub ⟨e, member, slot, inSlots, rfl⟩
    exact none e member slot inSlots
  · exact fun none e member slot inSlots => none slot.2 ⟨e, member, slot, inSlots, rfl⟩

/-- A sub-query that is searched passes the checks, unless it is correlated. -/
def Query.Passes (q : Query) : Prop := q.isCorrelated = false → q.checkPositions = .ok ()

private theorem Query.passes_iff {q : Query} :
    (if q.isCorrelated then .ok () else q.checkPositions) = .ok () ↔ q.Passes := by
  unfold Passes
  cases q.isCorrelated with
  | true => simp
  | false => simp

private theorem Expr.checkPositionsIn_eq_ok {es : List Expr} : checkPositionsIn es = .ok ()
    ↔ ∀ e ∈ es, e.checkPositions = .ok () := by
  induction es with
  | nil => simp [checkPositionsIn]
  | cons e rest ih => rw [checkPositionsIn, then_eq_ok, ih, List.forall_mem_cons]

private theorem FromItem.checkPositionsIn_eq_ok {items : List FromItem} : checkPositionsIn items = .ok ()
    ↔ ∀ item ∈ items, item.checkPositions = .ok () := by
  induction items with
  | nil => simp [checkPositionsIn]
  | cons item rest ih => rw [checkPositionsIn, then_eq_ok, ih, List.forall_mem_cons]

/-- A filter passes when the queries in its slots do. -/
theorem Expr.checkPositions_eq_ok {e : Expr} : e.checkPositions = .ok ()
    ↔ ∀ slot ∈ e.slots, slot.2.Passes := by
  refine ExprRule.expr (E := fun e => e.checkPositions = .ok () ↔ ∀ slot ∈ e.slots, slot.2.Passes) ?_ e
  constructor
  case func =>
    intro name args distinct ih
    rw [checkPositions, checkPositionsIn_eq_ok, slots, slotsIn_eq]
    simp only [List.mem_flatMap]
    constructor
    · rintro passed slot ⟨e, member, inSlots⟩
      exact (ih e member).mp (passed e member) slot inSlots
    · exact fun passes e member => (ih e member).mpr fun slot inSlots => passes slot ⟨e, member, inSlots⟩
  case binary =>
    intro op left right ihLeft ihRight
    rw [checkPositions, then_eq_ok, ihLeft, ihRight, slots, List.forall_mem_append]
  case not => exact fun operand ih => ih
  case isNull => exact fun operand negated ih => ih
  case inSubquery =>
    intro operand query negated ih
    rw [checkPositions, then_eq_ok, ih, Query.passes_iff, slots, List.forall_mem_append,
      List.forall_mem_singleton]
  case subquery =>
    intro query
    rw [checkPositions, Query.passes_iff, slots, List.forall_mem_singleton]
  case existsSubquery =>
    intro query negated
    rw [checkPositions, Query.passes_iff, slots, List.forall_mem_singleton]
  case column => simp [checkPositions, slots]
  case literal => simp [checkPositions, slots]
  case star => simp [checkPositions, slots]

/-- An item passes when its derived tables do and no join condition holds an aggregate query. -/
theorem FromItem.checkPositions_eq_ok {item : FromItem} : item.checkPositions = .ok ()
    ↔ Clause.on.check item.joinConditions = .ok () ∧ ∀ sub ∈ item.directSubqueries, sub.Passes := by
  induction item using FromItem.treeInduction with
  | table t => simp [checkPositions, joinConditions, directSubqueries, Clause.check]
  | subquery q =>
    rw [checkPositions, Query.passes_iff, directSubqueries, List.forall_mem_singleton]
    exact (and_iff_right rfl).symm
  | join left right kind on ihLeft ihRight =>
    rw [checkPositions, then_eq_ok, then_eq_ok, ihLeft, ihRight, directSubqueries, List.forall_mem_append,
      Clause.check_eq_ok, Clause.check_eq_ok, Clause.check_eq_ok, Clause.check_eq_ok, joinConditions]
    simp only [List.flatMap_append, List.map_append, List.forall_mem_append]
    tauto
  | placeholder ref => simp [checkPositions, joinConditions, directSubqueries, Clause.check]

private theorem FromItem.listPositions_eq_ok {items : List FromItem} : checkPositionsIn items = .ok ()
    ↔ Clause.on.check (items.flatMap joinConditions) = .ok ()
      ∧ ∀ sub ∈ items.flatMap directSubqueries, sub.Passes := by
  rw [checkPositionsIn_eq_ok, Clause.check_eq_ok, List.flatMap_assoc]
  simp only [checkPositions_eq_ok, Clause.check_eq_ok, List.map_flatMap, List.mem_flatMap,
    forall_exists_index, and_imp]
  constructor
  · exact fun each => ⟨fun sub item member inSlots => (each item member).1 sub inSlots,
      fun sub item member direct => (each item member).2 sub direct⟩
  · exact fun ⟨conditions, derived⟩ item member => ⟨fun sub inSlots => conditions sub item member inSlots,
      fun sub direct => derived sub item member direct⟩

private theorem Query.filterPositions_eq_ok {filter : Option Expr} :
    filter.elim (.ok ()) Expr.checkPositions = .ok ()
      ↔ ∀ sub ∈ (filter.toList.flatMap Expr.slots).map Prod.snd, sub.Passes := by
  cases filter with
  | none => simp
  | some e =>
    rw [Option.toList_some, List.flatMap_singleton, List.forall_mem_map]
    exact e.checkPositions_eq_ok

namespace Query

theorem forall_mem_heldIn {q : Query} {P : Query → Prop} {places : List Place} :
    (∀ sub ∈ q.heldIn places, P sub) ↔ ∀ place ∈ places, ∀ sub ∈ q.heldAt place, P sub := by
  simp only [heldIn, List.mem_flatMap, forall_exists_index, and_imp]
  exact ⟨fun each place among sub => each sub place among, fun each sub place among => each place among sub⟩

/-- A query passes when none of the clauses outside its filter holds an aggregate query that could be
evaluated on its own, and all that is searched passes. -/
theorem checkPositions_eq_ok {q : Query} : q.checkPositions = .ok ()
    ↔ (∀ sub ∈ q.heldIn Place.checked, sub.isCorrelated = false → sub.isAggregate = false)
      ∧ ∀ sub ∈ q.heldIn Place.searched, sub.Passes := by
  rcases q with ⟨selectList, fromList, filter, groupBy, having, orderBy, limit, asName⟩
  have level : Query.checkPositions ⟨selectList, fromList, filter, groupBy, having, orderBy, limit, asName⟩
      = (do
        Clause.check .selectList (selectList.map SelectItem.expr)
        Clause.check .groupBy groupBy
        Clause.check .having having.toList
        Clause.check .orderBy (orderBy.map OrderItem.expr)
        FromItem.checkPositionsIn fromList
        filter.elim (.ok ()) Expr.checkPositions) := by
    cases filter with
    | none => rw [checkPositions]; rfl
    | some e => rw [checkPositions]; rfl
  rw [level, then_eq_ok, then_eq_ok, then_eq_ok, then_eq_ok, then_eq_ok,
    FromItem.listPositions_eq_ok, filterPositions_eq_ok, forall_mem_heldIn, forall_mem_heldIn]
  simp only [Clause.check_eq_ok, Place.checked, Place.own, Place.searched, List.cons_append, List.nil_append,
    List.forall_mem_cons, List.not_mem_nil, IsEmpty.forall_iff, implies_true, and_true, and_assoc]
  rfl

theorem validate_eq_ok {q : Query} : q.validate = .ok ()
    ↔ q.isAggregate = true ∧ q.checkPositions = .ok () ∧ q.freeNames = [] := by
  unfold validate
  cases q.isAggregate with
  | false => exact iff_of_false nofun fun all => nomatch all.1
  | true =>
    rw [and_iff_right rfl]
    refine Iff.trans then_eq_ok (and_congr_right fun _ => ?_)
    cases q.freeNames with
    | nil => exact iff_of_true rfl rfl
    | cons name rest => exact iff_of_false nofun nofun

/-- The levels of a query that does not aggregate: neither the query nor any level in its from-list or
filter aggregates. -/
theorem isAggregate_eq_false {q : Query} : q.isAggregate = false ↔ q.isAggregateLevel = false
    ∧ (∀ sub ∈ q.listed, ∀ level ∈ sub.levels, level.isAggregateLevel = false)
    ∧ ∀ sub ∈ q.heldAt .filter, ∀ level ∈ sub.levels, level.isAggregateLevel = false := by
  have items : (FromItem.levelsIn q.fromList).any isAggregateLevel = false
      ↔ ∀ sub ∈ q.listed, ∀ level ∈ sub.levels, level.isAggregateLevel = false := by
    simp only [FromItem.levelsIn_eq, List.any_eq_false, List.mem_flatMap, FromItem.mem_levels, listed,
      Bool.not_eq_true]
    constructor
    · rintro none sub ⟨item, member, inItem⟩ level inside
      exact none level ⟨item, member, sub, inItem, inside⟩
    · rintro none level ⟨item, member, sub, inItem, inside⟩
      exact none sub ⟨item, member, inItem⟩ level inside
  have filtered : (q.filter.any fun e => e.levels.any isAggregateLevel) = false
      ↔ ∀ sub ∈ q.heldAt .filter, ∀ level ∈ sub.levels, level.isAggregateLevel = false := by
    cases own : q.filter with
    | none => simp [heldAt, own]
    | some e =>
      rw [heldAt, own, Option.toList_some, List.flatMap_singleton, Option.any_some]
      simp only [List.any_eq_false, Expr.mem_levels, List.forall_mem_map, Bool.not_eq_true]
      constructor
      · exact fun none slot inSlots level inside => none level ⟨slot, inSlots, inside⟩
      · rintro none level ⟨slot, inSlots, inside⟩
        exact none slot inSlots level inside
  rw [isAggregate, Bool.or_eq_false_iff, Bool.or_eq_false_iff, items, filtered, and_assoc]

end Query

end ApproxQuery
