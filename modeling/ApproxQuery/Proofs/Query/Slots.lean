import ApproxQuery.Query.Walk
import Mathlib.Algebra.BigOperators.Group.List.Basic

/-! A level seen from outside: its from-list and the queries in the slots of its expressions.
Walks and changes of levels are restated over these, and facts about queries are shown by
induction over them. -/
namespace ApproxQuery

/-- What a list of parts adds up to, part by part. -/
theorem sum_map_flatMap {σ α β : Type} [AddMonoid σ] (f : α → List β) (weight : β → σ) (l : List α) :
    ((l.flatMap f).map weight).sum = (l.map fun a => ((f a).map weight).sum).sum := by
  simp only [List.flatMap_def, List.map_flatten, List.sum_flatten, List.map_map, Function.comp_def]

/-- Changes the query in every slot of an expression. -/
def Expr.mapSlots (change : Query → Query) (e : Expr) : Expr :=
  Id.run (e.replaceSlots fun _ q => pure (change q))

namespace Expr

variable (change : Query → Query)

@[simp] theorem mapSlots_column (table : Option String) (name : String) :
    (column table name).mapSlots change = column table name := rfl

@[simp] theorem mapSlots_literal (value : Literal) :
    (literal value).mapSlots change = literal value := rfl

@[simp] theorem mapSlots_star (table : Option String) :
    (star table).mapSlots change = star table := rfl

theorem replaceSlotsIn_eq {m : Type → Type} [Monad m] [LawfulMonad m] (replace : SubqueryKind → Query → m Query)
    (es : List Expr) : replaceSlotsIn replace es = es.mapM (replaceSlots replace) := by
  induction es with
  | nil => rw [List.mapM_nil, replaceSlotsIn]
  | cons e rest ih => rw [List.mapM_cons, replaceSlotsIn, ih]

@[simp] theorem mapSlots_func (name : String) (args : List Expr) (distinct : Bool) :
    (func name args distinct).mapSlots change = func name (args.map (mapSlots change)) distinct := by
  have inArgs := replaceSlotsIn_eq (m := Id) (fun _ q => pure (change q)) args
  exact congrArg (func name · distinct) (inArgs.trans (List.mapM_pure (f := mapSlots change)))

@[simp] theorem mapSlots_binary (op : BinaryOp) (left right : Expr) :
    (binary op left right).mapSlots change
      = binary op (left.mapSlots change) (right.mapSlots change) := rfl

@[simp] theorem mapSlots_not (operand : Expr) :
    (Expr.not operand).mapSlots change = Expr.not (operand.mapSlots change) := rfl

@[simp] theorem mapSlots_isNull (operand : Expr) (negated : Bool) :
    (isNull operand negated).mapSlots change = isNull (operand.mapSlots change) negated := rfl

@[simp] theorem mapSlots_subquery (query : Query) :
    (subquery query).mapSlots change = subquery (change query) := rfl

@[simp] theorem mapSlots_inSubquery (operand : Expr) (query : Query) (negated : Bool) :
    (inSubquery operand query negated).mapSlots change
      = inSubquery (operand.mapSlots change) (change query) negated := rfl

@[simp] theorem mapSlots_existsSubquery (query : Query) (negated : Bool) :
    (existsSubquery query negated).mapSlots change = existsSubquery (change query) negated := rfl

theorem slotsIn_eq (es : List Expr) : slotsIn es = es.flatMap slots := by
  induction es with
  | nil => rfl
  | cons e rest ih => rw [slotsIn, ih, List.flatMap_cons]

theorem levelsIn_eq (es : List Expr) : levelsIn es = es.flatMap levels := by
  induction es with
  | nil => rfl
  | cons e rest ih => rw [levelsIn, ih, List.flatMap_cons]

end Expr

/-- What has to be shown of every form of expression so that it holds of all of them; queries in
slots are not entered. -/
structure ExprRule (E : Expr → Prop) : Prop where
  column : ∀ table name, E (.column table name)
  literal : ∀ value, E (.literal value)
  star : ∀ table, E (.star table)
  func : ∀ name args distinct, (∀ e ∈ args, E e) → E (.func name args distinct)
  binary : ∀ op left right, E left → E right → E (.binary op left right)
  not : ∀ operand, E operand → E (.not operand)
  isNull : ∀ operand negated, E operand → E (.isNull operand negated)
  subquery : ∀ query, E (.subquery query)
  inSubquery : ∀ operand query negated, E operand → E (.inSubquery operand query negated)
  existsSubquery : ∀ query negated, E (.existsSubquery query negated)

namespace ExprRule

variable {E : Expr → Prop}

mutual

theorem expr (rule : ExprRule E) : ∀ e : Expr, E e
  | .column table name => rule.column table name
  | .literal value => rule.literal value
  | .star table => rule.star table
  | .func name args distinct => rule.func name args distinct (rule.exprs args)
  | .binary op left right => rule.binary op left right (rule.expr left) (rule.expr right)
  | .not operand => rule.not operand (rule.expr operand)
  | .isNull operand negated => rule.isNull operand negated (rule.expr operand)
  | .subquery query => rule.subquery query
  | .inSubquery operand query negated =>
    rule.inSubquery operand query negated (rule.expr operand)
  | .existsSubquery query negated => rule.existsSubquery query negated

theorem exprs (rule : ExprRule E) : ∀ es : List Expr, ∀ e ∈ es, E e
  | [], _, member => nomatch member
  | first :: rest, e, member => by
    rcases List.mem_cons.mp member with same | later
    · exact same ▸ rule.expr first
    · exact rule.exprs rest e later

end

end ExprRule

namespace Expr

/-- Every walk over the levels below an expression goes through its slots. -/
theorem levels_eq (e : Expr) : e.levels = e.slots.flatMap fun slot => slot.2.levels := by
  refine ExprRule.expr (E := fun e => e.levels = e.slots.flatMap fun slot => slot.2.levels) ?_ e
  constructor
  case func =>
    intro name args distinct ih
    rw [levels, levelsIn_eq, slots, slotsIn_eq, List.flatMap_assoc]
    exact List.flatMap_congr ih
  case binary =>
    intro op left right ihLeft ihRight
    rw [levels, slots, List.flatMap_append, ihLeft, ihRight]
  case not => exact fun operand ih => ih
  case isNull => exact fun operand negated ih => ih
  case inSubquery =>
    intro operand query negated ih
    rw [levels, slots, List.flatMap_append, ih, List.flatMap_singleton]
  case subquery => exact fun query => (List.append_nil _).symm
  case existsSubquery => exact fun query negated => (List.append_nil _).symm
  all_goals intros; rfl

@[simp] theorem slots_mapSlots (change : Query → Query) (e : Expr) :
    (e.mapSlots change).slots = e.slots.map fun slot => (slot.1, change slot.2) := by
  refine ExprRule.expr (E := fun e => (e.mapSlots change).slots =
    e.slots.map fun slot => (slot.1, change slot.2)) ?_ e
  constructor
  case func =>
    intro name args distinct ih
    rw [mapSlots_func, slots, slots, slotsIn_eq, slotsIn_eq, List.flatMap_map, List.map_flatMap]
    exact List.flatMap_congr ih
  case binary =>
    intro op left right ihLeft ihRight
    rw [mapSlots_binary, slots, slots, List.map_append, ihLeft, ihRight]
  case not => exact fun operand ih => ih
  case isNull => exact fun operand negated ih => ih
  case inSubquery =>
    intro operand query negated ih
    rw [mapSlots_inSubquery, slots, slots, List.map_append, ih]
    rfl
  all_goals intros; rfl

theorem mapSlots_congr {f g : Query → Query} {e : Expr}
    (same : ∀ slot ∈ e.slots, f slot.2 = g slot.2) : e.mapSlots f = e.mapSlots g := by
  revert same
  refine ExprRule.expr (E := fun e => (∀ slot ∈ e.slots, f slot.2 = g slot.2) →
    e.mapSlots f = e.mapSlots g) ?_ e
  constructor
  case func =>
    intro name args distinct ih same
    rw [slots, slotsIn_eq] at same
    rw [mapSlots_func, mapSlots_func, List.map_congr_left]
    intro e member
    exact ih e member fun slot inSlots => same slot (List.mem_flatMap.mpr ⟨e, member, inSlots⟩)
  case binary =>
    intro op left right ihLeft ihRight same
    rw [mapSlots_binary, mapSlots_binary, ihLeft fun slot h => same slot (List.mem_append_left _ h),
      ihRight fun slot h => same slot (List.mem_append_right _ h)]
  case not => exact fun operand ih same => congrArg Expr.not (ih same)
  case isNull => exact fun operand negated ih same => congrArg (Expr.isNull · negated) (ih same)
  case subquery => exact fun query same => congrArg Expr.subquery (same _ List.mem_cons_self)
  case inSubquery =>
    intro operand query negated ih same
    rw [mapSlots_inSubquery, mapSlots_inSubquery,
      ih fun slot h => same slot (List.mem_append_left _ h),
      same (.membership, query) (List.mem_append_right _ List.mem_cons_self)]
  case existsSubquery =>
    exact fun query negated same => congrArg (Expr.existsSubquery · negated) (same _ List.mem_cons_self)
  all_goals intros; rfl

theorem mapSlots_mapSlots (f g : Query → Query) (e : Expr) :
    (e.mapSlots f).mapSlots g = e.mapSlots fun q => g (f q) := by
  refine ExprRule.expr (E := fun e => (e.mapSlots f).mapSlots g = e.mapSlots fun q => g (f q)) ?_ e
  constructor
  case func =>
    intro name args distinct ih
    rw [mapSlots_func, mapSlots_func, mapSlots_func, List.map_map]
    exact congrArg (Expr.func name · distinct) (List.map_congr_left ih)
  case binary =>
    intro op left right ihLeft ihRight
    rw [mapSlots_binary, mapSlots_binary, mapSlots_binary, ihLeft, ihRight]
  case not => exact fun operand ih => congrArg Expr.not ih
  case isNull => exact fun operand negated ih => congrArg (Expr.isNull · negated) ih
  case inSubquery =>
    exact fun operand query negated ih => congrArg (Expr.inSubquery · (g (f query)) negated) ih
  all_goals intros; rfl

theorem mapSlots_id (e : Expr) : (e.mapSlots fun q => q) = e := by
  refine ExprRule.expr (E := fun e => (e.mapSlots fun q => q) = e) ?_ e
  constructor
  case func =>
    intro name args distinct ih
    rw [mapSlots_func]
    exact congrArg (Expr.func name · distinct) ((List.map_congr_left ih).trans args.map_id)
  case binary =>
    intro op left right ihLeft ihRight
    rw [mapSlots_binary, ihLeft, ihRight]
  case not => exact fun operand ih => congrArg Expr.not ih
  case isNull => exact fun operand negated ih => congrArg (Expr.isNull · negated) ih
  case inSubquery =>
    exact fun operand query negated ih => congrArg (Expr.inSubquery · query negated) ih
  all_goals intros; rfl

theorem mapSlots_eq_self {change : Query → Query} {e : Expr}
    (same : ∀ slot ∈ e.slots, change slot.2 = slot.2) : e.mapSlots change = e :=
  (mapSlots_congr same).trans (mapSlots_id e)

theorem aggregatesIn_eq (es : List Expr) : aggregatesIn es = es.flatMap aggregates := by
  induction es with
  | nil => rfl
  | cons e rest ih => rw [aggregatesIn, ih, List.flatMap_cons]

theorem replaceAggregatesIn_eq {m : Type → Type} [Monad m] [LawfulMonad m] (replace : Expr → m Expr)
    (es : List Expr) : replaceAggregatesIn replace es = es.mapM (replaceAggregates replace) := by
  induction es with
  | nil => rw [List.mapM_nil, replaceAggregatesIn]
  | cons e rest ih => rw [List.mapM_cons, replaceAggregatesIn, ih]

theorem aggregates_mapSlots (change : Query → Query) (e : Expr) :
    (e.mapSlots change).aggregates = e.aggregates.map (mapSlots change) := by
  refine ExprRule.expr (E := fun e => (e.mapSlots change).aggregates =
    e.aggregates.map (mapSlots change)) ?_ e
  constructor
  case func =>
    intro name args distinct ih
    rw [mapSlots_func, aggregates, aggregates]
    split
    · rw [List.map_singleton, mapSlots_func]
    · rw [aggregatesIn_eq, aggregatesIn_eq, List.flatMap_map, List.map_flatMap]
      exact List.flatMap_congr ih
  case binary =>
    intro op left right ihLeft ihRight
    rw [mapSlots_binary, aggregates, aggregates, List.map_append, ihLeft, ihRight]
  case not => exact fun operand ih => ih
  case isNull => exact fun operand negated ih => ih
  case inSubquery => exact fun operand query negated ih => ih
  all_goals intros; rfl

/-- Whether an expression aggregates does not depend on the queries in its slots. -/
@[simp] theorem containsAggregate_mapSlots (change : Query → Query) (e : Expr) :
    (e.mapSlots change).containsAggregate = e.containsAggregate := by
  rw [containsAggregate, containsAggregate, aggregates_mapSlots, List.isEmpty_map]

end Expr

/-- What has to be shown of every kind of from-list item, and of a level given its from-list and
its slots, so that it holds of all queries and items. -/
structure LevelRule (Q : Query → Prop) (F : FromItem → Prop) : Prop where
  level : ∀ q : Query, (∀ item ∈ q.fromList, F item) →
    (∀ e ∈ q.exprs, ∀ slot ∈ e.slots, Q slot.2) → Q q
  table : ∀ t, F (.table t)
  derived : ∀ q, Q q → F (.subquery q)
  join : ∀ left right kind on, F left → F right →
    (∀ e : Expr, on = some e → ∀ slot ∈ e.slots, Q slot.2) → F (.join left right kind on)
  placeholder : ∀ ref, F (.placeholder ref)

namespace LevelRule

variable {Q : Query → Prop} {F : FromItem → Prop}

mutual

theorem query (rule : LevelRule Q F) : ∀ q : Query, Q q
  | ⟨selectList, fromList, filter, groupBy, having, orderBy, limit, asName⟩ => by
    refine rule.level _ (rule.items fromList) ?_
    intro e member
    simp only [Query.exprs, List.mem_append, List.mem_map, Option.mem_toList] at member
    rcases member with (((⟨item, inSelect, same⟩ | inFilter) | inGroup) | inHaving) | ⟨item, inOrder, same⟩
    · exact same ▸ rule.selected selectList item inSelect
    · exact rule.optional filter e inFilter
    · exact rule.exprs groupBy e inGroup
    · exact rule.optional having e inHaving
    · exact same ▸ rule.sorted orderBy item inOrder

theorem item (rule : LevelRule Q F) : ∀ i : FromItem, F i
  | .table t => rule.table t
  | .subquery q => rule.derived q (rule.query q)
  | .join left right kind on =>
    rule.join left right kind on (rule.item left) (rule.item right) (rule.optional on)
  | .placeholder ref => rule.placeholder ref

theorem items (rule : LevelRule Q F) : ∀ items : List FromItem, ∀ i ∈ items, F i
  | [], _, member => nomatch member
  | first :: rest, i, member => by
    rcases List.mem_cons.mp member with same | later
    · exact same ▸ rule.item first
    · exact rule.items rest i later

theorem expr (rule : LevelRule Q F) : ∀ e : Expr, ∀ slot ∈ e.slots, Q slot.2
  | .column _ _, _, member => nomatch member
  | .literal _, _, member => nomatch member
  | .star _, _, member => nomatch member
  | .func _ args _, slot, member => by
    rw [Expr.slots, Expr.slotsIn_eq] at member
    obtain ⟨e, inArgs, inSlots⟩ := List.mem_flatMap.mp member
    exact rule.exprs args e inArgs slot inSlots
  | .binary _ left right, slot, member => by
    rcases List.mem_append.mp member with inLeft | inRight
    · exact rule.expr left slot inLeft
    · exact rule.expr right slot inRight
  | .not operand, slot, member => rule.expr operand slot member
  | .isNull operand _, slot, member => rule.expr operand slot member
  | .subquery q, slot, member => List.mem_singleton.mp member ▸ rule.query q
  | .inSubquery operand q _, slot, member => by
    rcases List.mem_append.mp member with inOperand | own
    · exact rule.expr operand slot inOperand
    · exact List.mem_singleton.mp own ▸ rule.query q
  | .existsSubquery q _, slot, member => List.mem_singleton.mp member ▸ rule.query q

theorem exprs (rule : LevelRule Q F) : ∀ es : List Expr, ∀ e ∈ es, ∀ slot ∈ e.slots, Q slot.2
  | [], _, member => nomatch member
  | first :: rest, e, member => by
    rcases List.mem_cons.mp member with same | later
    · exact same ▸ rule.expr first
    · exact rule.exprs rest e later

theorem optional (rule : LevelRule Q F) :
    ∀ (clause : Option Expr) (e : Expr), clause = some e → ∀ slot ∈ e.slots, Q slot.2
  | none, _, same => nomatch same
  | some first, _, same => Option.some.inj same ▸ rule.expr first

theorem selected (rule : LevelRule Q F) :
    ∀ items : List SelectItem, ∀ i ∈ items, ∀ slot ∈ i.expr.slots, Q slot.2
  | [], _, member => nomatch member
  | ⟨first, _⟩ :: rest, i, member => by
    rcases List.mem_cons.mp member with same | later
    · exact same ▸ rule.expr first
    · exact rule.selected rest i later

theorem sorted (rule : LevelRule Q F) :
    ∀ items : List OrderItem, ∀ i ∈ items, ∀ slot ∈ i.expr.slots, Q slot.2
  | [], _, member => nomatch member
  | ⟨first, _⟩ :: rest, i, member => by
    rcases List.mem_cons.mp member with same | later
    · exact same ▸ rule.expr first
    · exact rule.sorted rest i later

end

end LevelRule

/-- Induction over a join tree. Derived tables are not entered. -/
@[elab_as_elim]
theorem FromItem.treeInduction {P : FromItem → Prop} (table : ∀ t, P (.table t))
    (subquery : ∀ q, P (.subquery q))
    (join : ∀ left right kind on, P left → P right → P (.join left right kind on))
    (placeholder : ∀ ref, P (.placeholder ref)) : ∀ item, P item
  | .table t => table t
  | .subquery q => subquery q
  | .join left right kind on => join left right kind on
      (treeInduction table subquery join placeholder left)
      (treeInduction table subquery join placeholder right)
  | .placeholder ref => placeholder ref

end ApproxQuery
