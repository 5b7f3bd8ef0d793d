import ApproxQuery.Proofs.Estimate.Scaling

/-! The ways on which rows of a table come to a level: from a reference in its own from-list, or from one
further down through derived tables that do not aggregate. A prefix of the blocks gives a share of the
answer where there is one such way, and on it no row is cut off or made up. -/
namespace ApproxQuery

/-- One way on which rows of a table come to a level. -/
structure Chain where
  /-- The reference that the rows come from. -/
  table : BaseTable
  /-- The derived tables that pass them on, the outermost first. -/
  through : List Query
  /-- Somewhere on the way an outer join puts nulls in place of rows it does not find. -/
  nullSupplied : Bool

namespace Chain

def enter (query : Query) (chain : Chain) : Chain := { chain with through := query :: chain.through }

def join (supplied : Bool) (chain : Chain) : Chain :=
  { chain with nullSupplied := supplied || chain.nullSupplied }

/-- No derived table cuts rows off, and no join makes rows up. -/
def isPlain (chain : Chain) : Bool := (chain.through.all fun d => d.limit.isNone) && !chain.nullSupplied

end Chain

/-- The join puts nulls in place of rows missing on the left. -/
def JoinKind.suppliesLeft : JoinKind → Bool
  | .right | .full => true
  | .inner | .left | .cross => false

/-- The join puts nulls in place of rows missing on the right. -/
def JoinKind.suppliesRight : JoinKind → Bool
  | .left | .full => true
  | .inner | .right | .cross => false

mutual

/-- The ways on which rows of the table come to a level. -/
def Query.chains (table : TableName) : Query → List Chain
  | ⟨_, fromList, _, _, _, _, _, _⟩ => FromItem.chainsIn table fromList

def FromItem.chains (table : TableName) : FromItem → List Chain
  | .table t => if t.name = table then [⟨t, [], false⟩] else []
  | .subquery query =>
    if query.isAggregateLevel then [] else (query.chains table).map (Chain.enter query)
  | .join left right kind _ => (left.chains table).map (Chain.join kind.suppliesLeft)
      ++ (right.chains table).map (Chain.join kind.suppliesRight)
  | .placeholder _ => []

def FromItem.chainsIn (table : TableName) : List FromItem → List Chain
  | [] => []
  | item :: rest => item.chains table ++ FromItem.chainsIn table rest

end

/-- Rows of the table come to the level on one way, and it is plain. -/
def Query.isLinearIn (table : TableName) (q : Query) : Bool :=
  match q.chains table with
  | [chain] => chain.isPlain
  | _ => false

variable {table : TableName}

theorem Query.chains_eq (q : Query) : q.chains table = q.fromList.flatMap (FromItem.chains table) := by
  rcases q with ⟨selectList, fromList, filter, groupBy, having, orderBy, limit, asName⟩
  rw [chains]
  induction fromList with
  | nil => rfl
  | cons item rest ih => rw [FromItem.chainsIn, ih, List.flatMap_cons]

/-- A level reads rows of the table where there is a way for them. -/
theorem Query.readsRows_iff_chains (q : Query) : q.readsRows table = true ↔ q.chains table ≠ [] := by
  have rule : LevelRule (fun q => q.readsRows table = true ↔ q.chains table ≠ [])
      (fun item => item.readsRows table = true ↔ item.chains table ≠ []) := by
    constructor
    case level =>
      intro q items _
      rw [readsRows_iff, chains_eq, Ne, List.flatMap_eq_nil_iff]
      simp only [not_forall, exists_prop]
      exact exists_congr fun item => and_congr_right (items item)
    case table =>
      intro t
      by_cases same : t.name = table
      · simp [FromItem.readsRows, FromItem.chains, same]
      · simp [FromItem.readsRows, FromItem.chains, same]
    case derived =>
      intro q ih
      cases aggregates : q.isAggregateLevel with
      | true => simp [FromItem.readsRows, FromItem.chains, aggregates]
      | false => simp [FromItem.readsRows, FromItem.chains, aggregates, ih]
    case join =>
      intro left right kind on ihLeft ihRight _
      simp [FromItem.readsRows, FromItem.chains, ihLeft, ihRight, or_iff_not_imp_left]
    case placeholder => simp [FromItem.readsRows, FromItem.chains]
  exact rule.query q

/-- Nothing on the way aggregates. -/
theorem Query.not_isAggregateLevel_of_through (q : Query) :
    ∀ chain ∈ q.chains table, ∀ d ∈ chain.through, d.isAggregateLevel = false := by
  have rule : LevelRule
      (fun q => ∀ chain ∈ q.chains table, ∀ d ∈ chain.through, d.isAggregateLevel = false)
      (fun item => ∀ chain ∈ item.chains table, ∀ d ∈ chain.through, d.isAggregateLevel = false) := by
    constructor
    case level =>
      intro q items _ chain member
      rw [chains_eq] at member
      obtain ⟨item, inList, inItem⟩ := List.mem_flatMap.mp member
      exact items item inList chain inItem
    case table =>
      intro t chain member
      rw [FromItem.chains] at member
      split at member
      · cases List.mem_singleton.mp member
        exact fun d never => nomatch never
      · cases member
    case derived =>
      intro q ih chain member
      rw [FromItem.chains] at member
      split at member
      · cases member
      · rename_i level
        obtain ⟨inner, below, rfl⟩ := List.mem_map.mp member
        refine List.forall_mem_cons.mpr ⟨Bool.eq_false_iff.mpr level, ih inner below⟩
    case join =>
      intro left right kind on ihLeft ihRight _ chain member
      rcases List.mem_append.mp member with inLeft | inRight
      · obtain ⟨inner, below, rfl⟩ := List.mem_map.mp inLeft
        exact ihLeft inner below
      · obtain ⟨inner, below, rfl⟩ := List.mem_map.mp inRight
        exact ihRight inner below
    case placeholder => exact fun ref chain never => nomatch never
  exact rule.query q

section Accounting

/-- The references to the table among some. -/
def referencesTo (table : TableName) (tables : List BaseTable) : List BaseTable :=
  tables.filter fun t => t.name = table

theorem referencesTo_append (tables more : List BaseTable) :
    referencesTo table (tables ++ more) = referencesTo table tables ++ referencesTo table more := by
  simp [referencesTo]

theorem referencesTo_perm {tables more : List BaseTable} (perm : tables.Perm more) :
    (referencesTo table tables).Perm (referencesTo table more) :=
  perm.filter _

theorem referencesTo_eq_nil {q : Query} :
    referencesTo table q.baseTables = [] ↔ q.readsTable table = false := by
  simp [referencesTo, Query.readsTable]

private theorem referencesTo_slots {slots : List (SubqueryKind × Query)}
    (avoid : ∀ slot ∈ slots, slot.2.readsTable table = false) :
    referencesTo table (slots.flatMap fun slot => slot.2.baseTables) = [] := by
  rw [referencesTo, List.filter_flatMap, List.flatMap_eq_nil_iff]
  exact fun slot member => referencesTo_eq_nil.mpr (avoid slot member)

private theorem flatMap_levels_slots (es : List Expr) :
    (es.flatMap Expr.levels).flatMap Query.directTables
      = (es.flatMap Expr.slots).flatMap fun slot => slot.2.baseTables := by
  rw [List.flatMap_assoc, List.flatMap_assoc]
  refine List.flatMap_congr fun e _ => ?_
  rw [Expr.levels_eq, List.flatMap_assoc]
  rfl

/-- Base tables of a level are those of its items and of its slots. -/
theorem Query.baseTables_perm (q : Query) : q.baseTables.Perm (q.fromList.flatMap FromItem.baseTables
    ++ (q.exprs.flatMap Expr.slots).flatMap fun slot => slot.2.baseTables) := by
  rw [baseTables, levels_eq, List.flatMap_cons, List.flatMap_append, flatMap_levels_slots, ← List.append_assoc,
    directTables, List.flatMap_assoc]
  exact (List.flatMap_append_perm _ _ _).append_right _

theorem FromItem.baseTables_join_perm (left right : FromItem) (kind : JoinKind) (on : Option Expr) :
    (FromItem.join left right kind on).baseTables.Perm (left.baseTables ++ right.baseTables
      ++ (on.toList.flatMap Expr.slots).flatMap fun slot => slot.2.baseTables) := by
  rw [baseTables, directTables, levels_join, List.flatMap_append, List.flatMap_append, flatMap_levels_slots,
    ← List.append_assoc, ← List.append_assoc]
  refine List.Perm.append_right _ ?_
  rw [baseTables, baseTables, List.append_assoc, List.append_assoc, List.append_assoc]
  exact List.Perm.append_left _ (List.perm_append_comm_assoc _ _ _)

theorem Chain.table_enter (q : Query) (chains : List Chain) :
    (chains.map (Chain.enter q)).map Chain.table = chains.map Chain.table := by
  rw [List.map_map]
  rfl

theorem Chain.table_join (supplied : Bool) (chains : List Chain) :
    (chains.map (Chain.join supplied)).map Chain.table = chains.map Chain.table := by
  rw [List.map_map]
  rfl

/-- Where rows come through from-lists alone and nothing aggregates them before, there is one way from
each reference to the table. -/
theorem Query.chains_perm {q : Query} (avoid : ∀ level ∈ q.levels, level.SlotsAvoid table)
    (only : q.rowsOnly table = true) :
    ((q.chains table).map Chain.table).Perm (referencesTo table q.baseTables) := by
  have rule : LevelRule
      (fun q => (∀ level ∈ q.levels, level.SlotsAvoid table) → q.rowsOnly table = true →
        ((q.chains table).map Chain.table).Perm (referencesTo table q.baseTables))
      (fun item => (∀ level ∈ item.levels, level.SlotsAvoid table) →
        (∀ e ∈ item.joinConditions, ∀ slot ∈ e.slots, slot.2.readsTable table = false) →
        item.rowsOnly table = true →
          ((item.chains table).map Chain.table).Perm (referencesTo table item.baseTables)) := by
    constructor
    case level =>
      intro q items _ avoid only
      have own : q.SlotsAvoid table := avoid q q.self_mem_levels
      have unread : referencesTo table ((q.exprs.flatMap Expr.slots).flatMap fun slot => slot.2.baseTables)
          = [] := by
        refine referencesTo_slots fun slot member => ?_
        obtain ⟨e, inExprs, inSlots⟩ := List.mem_flatMap.mp member
        exact own.expr inExprs inSlots
      refine List.Perm.trans ?_ (referencesTo_perm q.baseTables_perm).symm
      rw [referencesTo_append, unread, List.append_nil, referencesTo, List.filter_flatMap,
        chains_eq, List.map_flatMap]
      refine List.Perm.flatMap_left _ fun item inList => items item inList ?_ ?_ ?_
      · intro level below
        apply avoid
        rw [levels_eq]
        exact List.mem_cons_of_mem _
          (List.mem_append_left _ (List.mem_flatMap.mpr ⟨item, inList, below⟩))
      · exact fun e among slot inSlots => own.condition inList among inSlots
      · exact q.rowsOnly_iff.mp only item inList
    case table =>
      intro t _ _ _
      by_cases same : t.name = table
      · simp [FromItem.chains, referencesTo, same]
      · simp [FromItem.chains, referencesTo, same]
    case derived =>
      intro q ih avoid _ only
      rw [FromItem.baseTables_subquery]
      cases reads : q.readsTable table with
      | false =>
        have none : q.chains table = [] := by
          by_contra some
          have read := readsTable_of_drawsOn (drawsOn_of_readsRows (q.readsRows_iff_chains.mpr some))
          rw [reads] at read
          cases read
        rw [FromItem.chains, none, referencesTo_eq_nil.mpr reads, List.map_nil, ite_self]
        exact .nil
      | true =>
        simp only [FromItem.rowsOnly, reads, Bool.not_true, Bool.false_or, Bool.and_eq_true,
          Bool.not_eq_true'] at only
        rw [FromItem.chains, only.1, if_neg Bool.false_ne_true, Chain.table_enter]
        exact ih avoid only.2
    case join =>
      intro left right kind on ihLeft ihRight _ avoid conditions only
      rw [FromItem.levels_join] at avoid
      rw [FromItem.joinConditions] at conditions
      simp only [List.mem_append] at avoid conditions
      simp only [FromItem.rowsOnly, Bool.and_eq_true] at only
      have unread : referencesTo table ((on.toList.flatMap Expr.slots).flatMap fun slot => slot.2.baseTables)
          = [] := by
        refine referencesTo_slots fun slot member => ?_
        obtain ⟨e, condition, inSlots⟩ := List.mem_flatMap.mp member
        exact conditions e (.inr condition) slot inSlots
      refine List.Perm.trans ?_ (referencesTo_perm (FromItem.baseTables_join_perm left right kind on)).symm
      rw [referencesTo_append, unread, List.append_nil, referencesTo_append,
        FromItem.chains, List.map_append, Chain.table_join, Chain.table_join]
      apply List.Perm.append
      · exact ihLeft (fun level below => avoid level (.inl (.inl below)))
          (fun e among => conditions e (.inl (.inl among))) only.1
      · exact ihRight (fun level below => avoid level (.inl (.inr below)))
          (fun e among => conditions e (.inl (.inr among))) only.2
    case placeholder => exact fun ref _ _ _ => .nil
  exact rule.query q avoid only

end Accounting

namespace Query

theorem isLinearIn_iff {q : Query} : q.isLinearIn table = true
    ↔ (q.chains table).length = 1 ∧ ∀ chain ∈ q.chains table, chain.isPlain = true := by
  unfold isLinearIn
  rcases q.chains table with _ | ⟨chain, _ | ⟨other, rest⟩⟩
  · simp
  · simp
  · simp

/-- In a level that aggregates nothing that was aggregated before, and sees rows of the table, all
derived tables that read it pass its rows on. -/
theorem Scalable.rowsOnly {q : Query} {totals : Totals} (scalable : q.Scalable table totals)
    (reads : q.readsRows table = true) : q.rowsOnly table = true := by
  cases brings : totals.isEmpty with
  | true => exact rowsOnly_of_derived fun d => scalable.totalled.rows_of_isEmpty brings
  | false =>
    have unseen := (scalable.summed brings).1
    rw [reads] at unseen
    cases unseen

/-- In an accepted query, the rows come to an aggregating level from each reference to the table at or
below it, on a way where nothing aggregates them before. The level is linear exactly if there is one such
reference and its way is plain, and acceptance does not say so. -/
theorem accepted_linear_iff {q level : Query} (accepted : q.unscalable? table = none)
    (member : level ∈ q.levels) (aggregates : level.isAggregateLevel = true)
    (reads : level.readsRows table = true) :
    level.chains table ≠ []
      ∧ ((level.chains table).map Chain.table).Perm (referencesTo table level.baseTables)
      ∧ (∀ chain ∈ level.chains table, ∀ d ∈ chain.through, d.isAggregateLevel = false)
      ∧ (level.isLinearIn table = true ↔ (referencesTo table level.baseTables).length = 1
        ∧ ∀ chain ∈ level.chains table, chain.isPlain = true) := by
  have accepted (below) (inner : below ∈ level.levels) : below.levelUnscalable table = none :=
    List.findSome?_eq_none_iff.mp accepted below (mem_levels_trans member inner)
  have avoid (below) (inner : below ∈ level.levels) := (scalable_of_accepted (accepted below inner)).1
  obtain ⟨totals, scalable⟩ := (scalable_of_accepted (accepted level level.self_mem_levels)).2 aggregates
  have ways := chains_perm avoid (scalable.rowsOnly reads)
  refine ⟨level.readsRows_iff_chains.mp reads, ways, level.not_isAggregateLevel_of_through, ?_⟩
  have count := ways.length_eq
  rw [List.length_map] at count
  rw [isLinearIn_iff, count]

section Sample

/-- `SELECT count(*) AS n FROM ..`. -/
def countOver (fromList : List FromItem) : Query :=
  ⟨[⟨.func "count" [.star none] false, some "n"⟩], fromList, none, [], none, [], none, none⟩

/-- `(SELECT * FROM shop.orders AS o) AS d`, or the same with a limit. -/
def ordersUpTo (limit : Option UInt64) : Query :=
  { selectAll (.table ⟨"shop", "orders", some "o"⟩) with limit, asName := some "d" }

theorem countOver_orders_linear :
    (countOver [.subquery (ordersUpTo none)]).unscalable? ordersInHalves.name = none
      ∧ (countOver [.subquery (ordersUpTo none)]).isLinearIn ordersInHalves.name = true := by
  have accepted : (countOver [.subquery (ordersUpTo none)]).unscalable? ordersInHalves.name = none := rfl
  obtain ⟨_, _, _, linear⟩ := accepted_linear_iff accepted (self_mem_levels _) rfl rfl
  refine ⟨accepted, linear.mpr ⟨rfl, fun chain member => ?_⟩⟩
  cases List.mem_singleton.mp member
  rfl

/-- The query is accepted, and its top level aggregates rows of the table without being linear. -/
def AcceptedNotLinear (q : Query) (table : TableName) : Prop :=
  q.unscalable? table = none ∧ q.isAggregateLevel = true ∧ q.readsRows table = true
    ∧ q.isLinearIn table = false

/-- Two references, a limit, and an outer join that supplies nulls. -/
theorem accepted_not_linear :
    (countOver [.table ⟨"shop", "orders", some "a"⟩, .table ⟨"shop", "orders", some "b"⟩]).AcceptedNotLinear
        ordersInHalves.name
      ∧ (countOver [.subquery (ordersUpTo (some 10))]).AcceptedNotLinear ordersInHalves.name
      ∧ (countOver [.join (.table ⟨"shop", "shops", some "s"⟩) (.table ⟨"shop", "orders", some "o"⟩) .left
          (some (.binary .eq (.column (some "s") "id") (.column (some "o") "shop")))]).AcceptedNotLinear
        ordersInHalves.name := by
  refine ⟨?_, ?_, ?_⟩
  · exact ⟨rfl, rfl, rfl, rfl⟩
  · exact ⟨rfl, rfl, rfl, rfl⟩
  · exact ⟨rfl, rfl, rfl, rfl⟩

end Sample

end Query

end ApproxQuery
