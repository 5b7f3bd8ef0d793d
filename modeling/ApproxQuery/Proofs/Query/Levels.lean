import ApproxQuery.Proofs.Query.Slots
import ApproxQuery.Query.Placeholder

/-! Walks and changes of levels, one level at a time. A quantity summed over all levels is that of
the level itself and the sums over its from-list and its slots. -/
namespace ApproxQuery

/-- Changes the from-list items and the expressions of a level. -/
def Query.mapParts (onItem : FromItem → FromItem) (onExpr : Expr → Expr) (q : Query) : Query :=
  { q with
    selectList := q.selectList.map fun item => { item with expr := onExpr item.expr }
    fromList := q.fromList.map onItem
    filter := q.filter.map onExpr
    groupBy := q.groupBy.map onExpr
    having := q.having.map onExpr
    orderBy := q.orderBy.map fun item => { item with expr := onExpr item.expr } }

namespace Query

@[simp] theorem fromList_mapParts (onItem : FromItem → FromItem) (onExpr : Expr → Expr)
    (q : Query) : (q.mapParts onItem onExpr).fromList = q.fromList.map onItem := rfl

@[simp] theorem asName_mapParts (onItem : FromItem → FromItem) (onExpr : Expr → Expr)
    (q : Query) : (q.mapParts onItem onExpr).asName = q.asName := rfl

@[simp] theorem exprs_mapParts (onItem : FromItem → FromItem) (onExpr : Expr → Expr) (q : Query) :
    (q.mapParts onItem onExpr).exprs = q.exprs.map onExpr := by
  simp [exprs, mapParts, List.map_append, Function.comp_def, Option.toList_map]

theorem forall_mem_exprs {P : Expr → Prop} {q : Query} : (∀ e ∈ q.exprs, P e) ↔
    (∀ item ∈ q.selectList, P item.expr) ∧ (∀ e ∈ q.filter, P e) ∧ (∀ e ∈ q.groupBy, P e)
      ∧ (∀ e ∈ q.having, P e) ∧ ∀ item ∈ q.orderBy, P item.expr := by
  simp only [exprs, List.forall_mem_append, List.forall_mem_map, Option.mem_toList, Option.mem_def, and_assoc]

theorem mapParts_congr {onItem onItem' : FromItem → FromItem} {onExpr onExpr' : Expr → Expr}
    {q : Query} (items : ∀ item ∈ q.fromList, onItem item = onItem' item)
    (exprs : ∀ e ∈ q.exprs, onExpr e = onExpr' e) :
    q.mapParts onItem onExpr = q.mapParts onItem' onExpr' := by
  obtain ⟨selected, filtered, grouped, having', sorted⟩ := forall_mem_exprs.mp exprs
  unfold mapParts
  congr 1
  · exact List.map_congr_left fun item member => by rw [selected item member]
  · exact List.map_congr_left items
  · exact Option.map_congr fun e member => filtered e member
  · exact List.map_congr_left grouped
  · exact Option.map_congr fun e member => having' e member
  · exact List.map_congr_left fun item member => by rw [sorted item member]

theorem mapParts_mapParts (f g : FromItem → FromItem) (h k : Expr → Expr) (q : Query) :
    (q.mapParts f h).mapParts g k = q.mapParts (fun item => g (f item)) fun e => k (h e) := by
  simp [mapParts, Function.comp_def]

theorem mapParts_id (q : Query) : (q.mapParts (fun item => item) fun e => e) = q := by
  have selected : q.selectList.map (fun item : SelectItem => ⟨item.expr, item.asName⟩)
      = q.selectList := (List.map_congr_left fun item _ => by cases item; rfl).trans (List.map_id _)
  have sorted : q.orderBy.map (fun item : OrderItem => ⟨item.expr, item.descending⟩)
      = q.orderBy := (List.map_congr_left fun item _ => by cases item; rfl).trans (List.map_id _)
  rcases q with ⟨selectList, fromList, filter, groupBy, having, orderBy, limit, asName⟩
  simp [mapParts, selected, sorted]

theorem mapParts_eq_self {onItem : FromItem → FromItem} {onExpr : Expr → Expr} {q : Query}
    (items : ∀ item ∈ q.fromList, onItem item = item) (exprs : ∀ e ∈ q.exprs, onExpr e = e) :
    q.mapParts onItem onExpr = q :=
  (mapParts_congr items exprs).trans (mapParts_id q)

/-- A predicate without sub-queries fills no slot. -/
theorem slots_addFilter {predicate : Expr} (closed : predicate.slots = []) (q : Query) :
    (q.addFilter predicate).exprs.flatMap Expr.slots = q.exprs.flatMap Expr.slots := by
  cases filter : q.filter with
  | none => simp [addFilter, exprs, filter, closed]
  | some e => simp [addFilter, exprs, filter, closed, Expr.and, Expr.slots]

/-- A level aggregates by its own expressions alone. -/
theorem isAggregateLevel_mapParts {onItem : FromItem → FromItem} {onExpr : Expr → Expr}
    (same : ∀ e, (onExpr e).containsAggregate = e.containsAggregate) (q : Query) :
    (q.mapParts onItem onExpr).isAggregateLevel = q.isAggregateLevel := by
  simp [isAggregateLevel, mapParts, same, List.any_map, Function.comp_def, Option.any_map]

end Query

section Walking

theorem SelectItem.levelsIn_eq (items : List SelectItem) :
    levelsIn items = (items.map SelectItem.expr).flatMap Expr.levels := by
  induction items with
  | nil => rfl
  | cons item rest ih =>
    rcases item with ⟨e, asName⟩
    rw [levelsIn, ih, List.map_cons, List.flatMap_cons]

theorem OrderItem.levelsIn_eq (items : List OrderItem) :
    levelsIn items = (items.map OrderItem.expr).flatMap Expr.levels := by
  induction items with
  | nil => rfl
  | cons item rest ih =>
    rcases item with ⟨e, descending⟩
    rw [levelsIn, ih, List.map_cons, List.flatMap_cons]

theorem FromItem.levelsIn_eq (items : List FromItem) : levelsIn items = items.flatMap levels := by
  induction items with
  | nil => rfl
  | cons item rest ih => rw [levelsIn, ih, List.flatMap_cons]

theorem FromItem.levels_join (left right : FromItem) (kind : JoinKind) (on : Option Expr) :
    (FromItem.join left right kind on).levels
      = left.levels ++ right.levels ++ on.toList.flatMap Expr.levels := by
  cases on with
  | none => rfl
  | some e => simp [levels]

/-- The walk over a level: the level, then its from-list, then its expressions. -/
theorem Query.levels_eq (q : Query) :
    q.levels = q :: (q.fromList.flatMap FromItem.levels ++ q.exprs.flatMap Expr.levels) := by
  rcases q with ⟨selectList, fromList, filter, groupBy, having, orderBy, limit, asName⟩
  cases filter <;> cases having <;>
    simp [Query.levels, Query.exprs, FromItem.levelsIn_eq, SelectItem.levelsIn_eq,
      Expr.levelsIn_eq, OrderItem.levelsIn_eq]

theorem Query.self_mem_levels (q : Query) : q ∈ q.levels :=
  q.levels_eq ▸ List.mem_cons_self

theorem Expr.mem_levels {e : Expr} {level : Query} :
    level ∈ e.levels ↔ ∃ slot ∈ e.slots, level ∈ slot.2.levels := by
  rw [levels_eq, List.mem_flatMap]

/-- Queries that an item holds at its own level: derived tables, and those in the slots of join
conditions. -/
def FromItem.listed : FromItem → List Query
  | .subquery query => [query]
  | .join left right _ on =>
    left.listed ++ right.listed ++ (on.toList.flatMap Expr.slots).map Prod.snd
  | .table _ => []
  | .placeholder _ => []

/-- Queries that a level holds in its from-list. -/
def Query.listed (q : Query) : List Query := q.fromList.flatMap FromItem.listed

/-- Queries that a level holds in the slots of its expressions. -/
def Query.slotted (q : Query) : List Query := (q.exprs.flatMap Expr.slots).map Prod.snd

/-- The queries that a level holds. -/
def Query.held (q : Query) : List Query := q.listed ++ q.slotted

theorem Query.mem_held {q sub : Query} : sub ∈ q.held ↔ sub ∈ q.listed ∨ sub ∈ q.slotted := List.mem_append

theorem Query.mem_slots {es : List Expr} {sub : Query} : sub ∈ (es.flatMap Expr.slots).map Prod.snd
    ↔ ∃ e ∈ es, ∃ slot ∈ e.slots, slot.2 = sub := by
  simp only [List.mem_map, List.mem_flatMap]
  constructor
  · rintro ⟨slot, ⟨e, own, inSlots⟩, same⟩
    exact ⟨e, own, slot, inSlots, same⟩
  · rintro ⟨e, own, slot, inSlots, same⟩
    exact ⟨slot, ⟨e, own, inSlots⟩, same⟩

theorem Query.mem_slotted {q sub : Query} :
    sub ∈ q.slotted ↔ ∃ e ∈ q.exprs, ∃ slot ∈ e.slots, slot.2 = sub := mem_slots

theorem FromItem.mem_listed_join {left right : FromItem} {kind : JoinKind} {on : Option Expr}
    {sub : Query} : sub ∈ (FromItem.join left right kind on).listed ↔ sub ∈ left.listed
      ∨ sub ∈ right.listed ∨ ∃ e, on = some e ∧ ∃ slot ∈ e.slots, slot.2 = sub := by
  cases on with
  | none => simp [listed]
  | some e => simp [listed]

/-- Induction over a query through the queries that its levels hold. -/
@[elab_as_elim]
theorem Query.nestedInduction {P : Query → Prop}
    (level : ∀ q : Query, (∀ sub ∈ q.listed, P sub) → (∀ sub ∈ q.slotted, P sub) → P q)
    (q : Query) : P q := by
  have rule : LevelRule P fun item => ∀ sub ∈ item.listed, P sub := by
    constructor
    case level =>
      intro q items slots
      apply level
      · intro sub member
        obtain ⟨item, inList, inItem⟩ := List.mem_flatMap.mp member
        exact items item inList sub inItem
      · intro sub member
        obtain ⟨e, own, slot, inSlots, same⟩ := mem_slotted.mp member
        exact same ▸ slots e own slot inSlots
    case table => exact fun t sub member => nomatch member
    case derived => exact fun q ih sub member => List.mem_singleton.mp member ▸ ih
    case join =>
      intro left right kind on ihLeft ihRight slots sub member
      rcases FromItem.mem_listed_join.mp member with inLeft | inRight | ⟨e, condition, slot, inSlots, same⟩
      · exact ihLeft sub inLeft
      · exact ihRight sub inRight
      · exact same ▸ slots e condition slot inSlots
    case placeholder => exact fun ref sub member => nomatch member
  exact rule.query q

/-- The same, wherever a level holds a query. -/
@[elab_as_elim]
theorem Query.heldInduction {P : Query → Prop} (level : ∀ q : Query, (∀ sub ∈ q.held, P sub) → P q)
    (q : Query) : P q := by
  induction q using nestedInduction with
  | level q ihListed ihSlotted => exact level q (List.forall_mem_append.mpr ⟨ihListed, ihSlotted⟩)

theorem FromItem.levels_listed (item : FromItem) : item.levels = item.listed.flatMap Query.levels := by
  induction item using FromItem.treeInduction with
  | table t => rfl
  | subquery q => exact (List.append_nil _).symm
  | join left right kind on ihLeft ihRight =>
    rw [levels_join, ihLeft, ihRight, listed, List.flatMap_append, List.flatMap_append, List.flatMap_map,
      List.flatMap_assoc]
    exact congrArg _ (List.flatMap_congr fun e _ => e.levels_eq)
  | placeholder ref => rfl

/-- The levels of a query are the query and, one for one, those of the queries it holds. -/
theorem Query.levels_held (q : Query) : q.levels = q :: q.held.flatMap levels := by
  have items : q.fromList.flatMap FromItem.levels = q.listed.flatMap levels := by
    rw [listed, List.flatMap_assoc]
    exact List.flatMap_congr fun item _ => item.levels_listed
  have slots : q.exprs.flatMap Expr.levels = q.slotted.flatMap levels := by
    rw [slotted, List.flatMap_map, List.flatMap_assoc]
    exact List.flatMap_congr fun e _ => e.levels_eq
  rw [levels_eq, items, slots, held, List.flatMap_append]

/-- The levels of a query are the query and those of the queries it holds. -/
theorem Query.mem_levels {q level : Query} :
    level ∈ q.levels ↔ level = q ∨ ∃ sub, (sub ∈ q.listed ∨ sub ∈ q.slotted) ∧ level ∈ sub.levels := by
  rw [q.levels_held, List.mem_cons, List.mem_flatMap]
  simp only [mem_held]

theorem FromItem.mem_levels {item : FromItem} {level : Query} :
    level ∈ item.levels ↔ ∃ sub ∈ item.listed, level ∈ sub.levels := by
  rw [item.levels_listed, List.mem_flatMap]

/-- A level is the query itself, or some level of it holds it. -/
theorem Query.holder_of_mem_levels {q level : Query} (member : level ∈ q.levels) :
    level = q ∨ ∃ outer ∈ q.levels, level ∈ outer.listed ∨ level ∈ outer.slotted := by
  induction q using nestedInduction with
  | level q ihListed ihSlotted =>
    rcases mem_levels.mp member with same | ⟨sub, place, below⟩
    · exact .inl same
    · have inside : level = sub ∨ ∃ outer ∈ sub.levels, level ∈ outer.listed ∨ level ∈ outer.slotted :=
        place.elim (fun inItems => ihListed sub inItems below) fun inSlots => ihSlotted sub inSlots below
      apply Or.inr
      rcases inside with rfl | ⟨outer, among, holds⟩
      · exact ⟨q, q.self_mem_levels, place⟩
      · exact ⟨outer, mem_levels.mpr (.inr ⟨sub, place, among⟩), holds⟩

/-- Levels of a level are levels of the query. -/
theorem Query.mem_levels_trans {q level below : Query} (outer : level ∈ q.levels)
    (inner : below ∈ level.levels) : below ∈ q.levels := by
  induction q using nestedInduction with
  | level q ihListed ihSlotted =>
    rcases mem_levels.mp outer with same | ⟨sub, place, among⟩
    · exact same ▸ inner
    · refine mem_levels.mpr (.inr ⟨sub, place, ?_⟩)
      exact place.elim (fun inItems => ihListed sub inItems among) fun inSlots => ihSlotted sub inSlots among

theorem FromItem.listed_of_derived {item : FromItem} {d : Query}
    (member : d ∈ item.directSubqueries) : d ∈ item.listed := by
  induction item using FromItem.treeInduction with
  | table t => exact member
  | subquery q => exact member
  | join left right kind on ihLeft ihRight =>
    exact mem_listed_join.mpr ((List.mem_append.mp member).imp ihLeft fun inRight => .inl (ihRight inRight))
  | placeholder ref => exact member

/-- A derived table is a level of the query that reads it. -/
theorem Query.mem_levels_of_derived {q d : Query} (member : d ∈ q.directSubqueries) :
    d ∈ q.levels := by
  obtain ⟨item, inList, inItem⟩ := List.mem_flatMap.mp member
  have listed : d ∈ q.listed := List.mem_flatMap.mpr ⟨item, inList, FromItem.listed_of_derived inItem⟩
  exact mem_levels.mpr (.inr ⟨d, .inl listed, d.self_mem_levels⟩)

end Walking

section Visiting

variable {m : Type → Type} [Monad m] [LawfulMonad m] (visit : Query → m (Query → Query))

private theorem Expr.changeLevelsIn_eq {es : List Expr}
    (each : ∀ e ∈ es, e.changeLevels visit = e.replaceSlots fun _ => Query.changeLevels visit) :
    changeLevelsIn visit es = es.mapM (replaceSlots fun _ => Query.changeLevels visit) := by
  induction es with
  | nil => rw [List.mapM_nil, changeLevelsIn]
  | cons e rest ih =>
    obtain ⟨first, later⟩ := List.forall_mem_cons.mp each
    rw [List.mapM_cons, changeLevelsIn, ih later, first]

/-- The levels below an expression are changed slot by slot. -/
theorem Expr.changeLevels_eq (e : Expr) :
    e.changeLevels visit = e.replaceSlots fun _ => Query.changeLevels visit := by
  refine ExprRule.expr (E := fun e => e.changeLevels visit = e.replaceSlots fun _ => Query.changeLevels visit) ?_ e
  constructor
  case func =>
    intro name args distinct ih
    rw [changeLevels, replaceSlots, changeLevelsIn_eq visit ih, replaceSlotsIn_eq]
  all_goals intros; simp only [changeLevels, replaceSlots, *]

private theorem SelectItem.changeLevelsIn_eq (items : List SelectItem) :
    changeLevelsIn visit items = items.mapM fun item => do
      return { item with expr := ← item.expr.replaceSlots fun _ => Query.changeLevels visit } := by
  induction items with
  | nil => rw [List.mapM_nil, changeLevelsIn]
  | cons item rest ih =>
    rcases item with ⟨e, asName⟩
    simp only [List.mapM_cons, changeLevelsIn, ih, e.changeLevels_eq, bind_assoc, pure_bind]

private theorem OrderItem.changeLevelsIn_eq (items : List OrderItem) :
    changeLevelsIn visit items = items.mapM fun item => do
      return { item with expr := ← item.expr.replaceSlots fun _ => Query.changeLevels visit } := by
  induction items with
  | nil => rw [List.mapM_nil, changeLevelsIn]
  | cons item rest ih =>
    rcases item with ⟨e, descending⟩
    simp only [List.mapM_cons, changeLevelsIn, ih, e.changeLevels_eq, bind_assoc, pure_bind]

private theorem FromItem.changeLevelsIn_eq (items : List FromItem) :
    changeLevelsIn visit items = items.mapM (changeLevels visit) := by
  induction items with
  | nil => rw [List.mapM_nil, changeLevelsIn]
  | cons item rest ih => rw [List.mapM_cons, changeLevelsIn, ih]

/-- The visit of a level comes first, then its from-list and its slots, and last the change of the level. -/
theorem Query.changeLevels_parts (q : Query) : q.changeLevels visit = do
    let change ← visit q
    let fromList ← q.fromList.mapM (FromItem.changeLevels visit)
    let nested ← { q with fromList }.changeExprs (Expr.replaceSlots fun _ => changeLevels visit)
    return change nested := by
  have grouped (es : List Expr) := Expr.changeLevelsIn_eq visit fun e (_ : e ∈ es) => e.changeLevels_eq visit
  rcases q with ⟨selectList, fromList, filter, groupBy, having, orderBy, limit, asName⟩
  cases filter <;> cases having <;>
    simp [changeLevels, changeExprs, FromItem.changeLevelsIn_eq, SelectItem.changeLevelsIn_eq,
      OrderItem.changeLevelsIn_eq, grouped, Expr.changeLevels_eq]

end Visiting

section Changing

variable (change : Query → Query → Query)

/-- Changes every level below a from-list item. -/
def FromItem.mapLevels (item : FromItem) : FromItem :=
  Id.run (item.changeLevels fun before => pure (change before))

theorem Expr.changeLevels_pure (e : Expr) :
    Id.run (e.changeLevels fun before => pure (change before)) = e.mapSlots (Query.mapLevels change) :=
  congrArg Id.run (e.changeLevels_eq (m := Id) fun before => pure (change before))

@[simp] theorem FromItem.mapLevels_table (t : BaseTable) :
    (FromItem.table t).mapLevels change = .table t := rfl

@[simp] theorem FromItem.mapLevels_subquery (q : Query) :
    (FromItem.subquery q).mapLevels change = .subquery (q.mapLevels change) := rfl

@[simp] theorem FromItem.mapLevels_placeholder (ref : PlaceholderRef) :
    (FromItem.placeholder ref).mapLevels change = .placeholder ref := rfl

@[simp] theorem FromItem.mapLevels_join (left right : FromItem) (kind : JoinKind)
    (on : Option Expr) :
    (FromItem.join left right kind on).mapLevels change
      = .join (left.mapLevels change) (right.mapLevels change) kind
          (on.map (Expr.mapSlots (Query.mapLevels change))) := by
  cases on with
  | none => rfl
  | some e =>
    exact congrArg (fun e => FromItem.join _ _ kind (some e)) (Expr.changeLevels_pure change e)

/-- A change of a level's expressions that cannot fail. -/
theorem Query.changeExprs_pure (onExpr : Expr → Expr) (q : Query) :
    Id.run (q.changeExprs fun e => pure (onExpr e)) = q.mapParts (fun item => item) onExpr := by
  have clause (e : Option Expr) : Id.run (e.mapM fun e => pure (onExpr e)) = e.map onExpr := by
    cases e <;> rfl
  simp [changeExprs, mapParts, clause]

/-- The same, with a change of the from-list before it. -/
theorem Query.changeParts_pure (onItem : FromItem → FromItem) (onExpr : Expr → Expr) (q : Query) :
    Id.run (do
      let fromList ← q.fromList.mapM fun item => pure (onItem item)
      { q with fromList }.changeExprs fun e => pure (onExpr e)) = q.mapParts onItem onExpr := by
  have items : q.fromList.mapM (m := Id) (fun item => pure (onItem item)) = q.fromList.map onItem :=
    List.mapM_pure
  refine (changeExprs_pure onExpr _).trans ?_
  rw [items]
  simp only [mapParts, List.map_id']

/-- A level is changed after the queries below it. -/
theorem Query.mapLevels_eq (q : Query) :
    q.mapLevels change
      = change q (q.mapParts (FromItem.mapLevels change) (Expr.mapSlots (mapLevels change))) := by
  have parts := q.changeLevels_parts (m := Id) fun before => pure (change before)
  refine (congrArg Id.run parts).trans (congrArg (change q) ?_)
  exact q.changeParts_pure (FromItem.mapLevels change) (Expr.mapSlots (mapLevels change))

end Changing

end ApproxQuery
