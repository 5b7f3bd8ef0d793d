import ApproxQuery.Estimate.Acceptance
import ApproxQuery.Proofs.Estimate.Increment

/-! How the rows of a table come to a level. Where no sub-query in an expression reads the table,
its rows come through from-lists alone, and a restriction to a block prefix changes nothing else. -/
namespace ApproxQuery

mutual

/-- Rows of the table come to a level from its own from-list or through derived tables, whether
these aggregate or not. -/
def Query.drawsOn (table : TableName) : Query → Bool
  | ⟨_, fromList, _, _, _, _, _, _⟩ => FromItem.drawsOnIn table fromList

def FromItem.drawsOn (table : TableName) : FromItem → Bool
  | .table t => t.name = table
  | .subquery query => query.drawsOn table
  | .join left right _ _ => left.drawsOn table || right.drawsOn table
  | .placeholder _ => false

def FromItem.drawsOnIn (table : TableName) : List FromItem → Bool
  | [] => false
  | item :: rest => item.drawsOn table || FromItem.drawsOnIn table rest

end

variable {table : TableName}

namespace Query

theorem drawsOn_iff (q : Query) :
    q.drawsOn table = true ↔ ∃ item ∈ q.fromList, item.drawsOn table = true := by
  rcases q with ⟨selectList, fromList, filter, groupBy, having, orderBy, limit, asName⟩
  rw [drawsOn]
  induction fromList with
  | nil => simp [FromItem.drawsOnIn]
  | cons item rest ih => simp [FromItem.drawsOnIn, ih]

theorem readsRows_iff (q : Query) :
    q.readsRows table = true ↔ ∃ item ∈ q.fromList, item.readsRows table = true := by
  rcases q with ⟨selectList, fromList, filter, groupBy, having, orderBy, limit, asName⟩
  rw [readsRows]
  induction fromList with
  | nil => simp [FromItem.readsRowsIn]
  | cons item rest ih => simp [FromItem.readsRowsIn, ih]

theorem rowsOnly_iff (q : Query) :
    q.rowsOnly table = true ↔ ∀ item ∈ q.fromList, item.rowsOnly table = true := by
  rcases q with ⟨selectList, fromList, filter, groupBy, having, orderBy, limit, asName⟩
  rw [rowsOnly]
  induction fromList with
  | nil => simp [FromItem.rowsOnlyIn]
  | cons item rest ih => simp [FromItem.rowsOnlyIn, ih]

end Query

/-- Base tables of an item's join tree, and of all levels below it. -/
def FromItem.baseTables (item : FromItem) : List BaseTable :=
  item.directTables ++ item.levels.flatMap Query.directTables

section BaseTables

variable {t : BaseTable}

private theorem exists_mem_levels {e : Expr} : (∃ level ∈ e.levels, t ∈ level.directTables)
    ↔ ∃ slot ∈ e.slots, t ∈ slot.2.baseTables := by
  rw [← List.mem_flatMap, Expr.levels_eq, List.flatMap_assoc, List.mem_flatMap]
  rfl

theorem Query.mem_baseTables {q : Query} : t ∈ q.baseTables
    ↔ (∃ item ∈ q.fromList, t ∈ item.baseTables)
      ∨ ∃ e ∈ q.exprs, ∃ slot ∈ e.slots, t ∈ slot.2.baseTables := by
  rw [baseTables, levels_eq, List.flatMap_cons, List.flatMap_append, List.flatMap_assoc,
    List.flatMap_assoc, ← List.append_assoc, List.mem_append, List.mem_append, directTables]
  simp only [List.mem_flatMap, exists_mem_levels, FromItem.baseTables, List.mem_append, and_or_left,
    exists_or]

@[simp] theorem FromItem.baseTables_table (own : BaseTable) :
    (FromItem.table own).baseTables = [own] := rfl

@[simp] theorem FromItem.baseTables_subquery (q : Query) :
    (FromItem.subquery q).baseTables = q.baseTables := rfl

@[simp] theorem FromItem.baseTables_placeholder (ref : PlaceholderRef) :
    (FromItem.placeholder ref).baseTables = [] := rfl

theorem FromItem.mem_baseTables_join {left right : FromItem} {kind : JoinKind} {on : Option Expr} :
    t ∈ (FromItem.join left right kind on).baseTables ↔ t ∈ left.baseTables ∨ t ∈ right.baseTables
      ∨ ∃ e, on = some e ∧ ∃ slot ∈ e.slots, t ∈ slot.2.baseTables := by
  have below : t ∈ (on.toList.flatMap Expr.levels).flatMap Query.directTables
      ↔ ∃ e, on = some e ∧ ∃ slot ∈ e.slots, t ∈ slot.2.baseTables := by
    rw [List.flatMap_assoc, List.mem_flatMap]
    simp only [Option.mem_toList, List.mem_flatMap, exists_mem_levels]
  rw [baseTables, directTables, levels_join, List.flatMap_append, List.flatMap_append]
  simp only [baseTables, List.mem_append, below]
  tauto

theorem Query.readsTable_iff {q : Query} :
    q.readsTable table = true ↔ ∃ t ∈ q.baseTables, t.name = table := by
  simp [readsTable]

end BaseTables

namespace Query

/-- Rows that are seen are drawn on. -/
theorem drawsOn_of_readsRows {q : Query} (reads : q.readsRows table = true) :
    q.drawsOn table = true := by
  have rule : LevelRule (fun q => q.readsRows table = true → q.drawsOn table = true)
      (fun item => item.readsRows table = true → item.drawsOn table = true) := by
    constructor
    case level =>
      intro q items _ reads
      obtain ⟨item, member, readsItem⟩ := q.readsRows_iff.mp reads
      exact q.drawsOn_iff.mpr ⟨item, member, items item member readsItem⟩
    case table => exact fun t same => same
    case derived =>
      intro q ih reads
      simp only [FromItem.readsRows, Bool.and_eq_true] at reads
      exact ih reads.2
    case join =>
      intro left right kind on ihLeft ihRight _ reads
      simp only [FromItem.readsRows, FromItem.drawsOn, Bool.or_eq_true] at reads ⊢
      exact reads.imp ihLeft ihRight
    case placeholder => exact fun ref never => nomatch never
  exact rule.query q reads

/-- What is drawn on is read somewhere. -/
theorem readsTable_of_drawsOn {q : Query} (draws : q.drawsOn table = true) :
    q.readsTable table = true := by
  have rule : LevelRule (fun q => q.drawsOn table = true → ∃ t ∈ q.baseTables, t.name = table)
      (fun item => item.drawsOn table = true → ∃ t ∈ item.baseTables, t.name = table) := by
    constructor
    case level =>
      intro q items _ draws
      obtain ⟨item, member, drawsItem⟩ := q.drawsOn_iff.mp draws
      obtain ⟨t, inItem, same⟩ := items item member drawsItem
      exact ⟨t, mem_baseTables.mpr (.inl ⟨item, member, inItem⟩), same⟩
    case table => exact fun t same => ⟨t, List.mem_cons_self, of_decide_eq_true same⟩
    case derived => exact fun q ih => ih
    case join =>
      intro left right kind on ihLeft ihRight _ draws
      simp only [FromItem.drawsOn, Bool.or_eq_true] at draws
      rcases draws with draws | draws
      · obtain ⟨t, inLeft, same⟩ := ihLeft draws
        exact ⟨t, FromItem.mem_baseTables_join.mpr (.inl inLeft), same⟩
      · obtain ⟨t, inRight, same⟩ := ihRight draws
        exact ⟨t, FromItem.mem_baseTables_join.mpr (.inr (.inl inRight)), same⟩
    case placeholder => exact fun ref never => nomatch never
  exact readsTable_iff.mpr (rule.query q draws)

/-- Through derived tables that pass rows on, whatever is drawn on is seen as rows. -/
theorem readsRows_of_rowsOnly {q : Query} (only : q.rowsOnly table = true)
    (draws : q.drawsOn table = true) : q.readsRows table = true := by
  have rule : LevelRule
      (fun q => q.rowsOnly table = true → q.drawsOn table = true → q.readsRows table = true)
      (fun item => item.rowsOnly table = true → item.drawsOn table = true
        → item.readsRows table = true) := by
    constructor
    case level =>
      intro q items _ only draws
      obtain ⟨item, member, drawsItem⟩ := q.drawsOn_iff.mp draws
      exact q.readsRows_iff.mpr
        ⟨item, member, items item member (q.rowsOnly_iff.mp only item member) drawsItem⟩
    case table => exact fun t _ same => same
    case derived =>
      intro q ih only draws
      have reads := readsTable_of_drawsOn (q := q) draws
      simp only [FromItem.rowsOnly, reads, Bool.not_true, Bool.false_or, Bool.and_eq_true] at only
      simp only [FromItem.readsRows, only.1, Bool.true_and]
      exact ih only.2 draws
    case join =>
      intro left right kind on ihLeft ihRight _ only draws
      simp only [FromItem.rowsOnly, Bool.and_eq_true] at only
      simp only [FromItem.drawsOn, FromItem.readsRows, Bool.or_eq_true] at draws ⊢
      exact draws.imp (ihLeft only.1) (ihRight only.2)
    case placeholder => exact fun ref _ never => nomatch never
  exact rule.query q only draws

/-- No sub-query in an expression of the level reads the table. -/
def SlotsAvoid (table : TableName) (q : Query) : Prop :=
  ∀ slot ∈ (q.exprs ++ q.joinConditions).flatMap Expr.slots, slot.2.readsTable table = false

theorem SlotsAvoid.expr {q : Query} (avoid : q.SlotsAvoid table) {e : Expr} (member : e ∈ q.exprs)
    {slot : SubqueryKind × Query} (inSlots : slot ∈ e.slots) : slot.2.readsTable table = false :=
  avoid slot (List.mem_flatMap.mpr ⟨e, List.mem_append_left _ member, inSlots⟩)

theorem SlotsAvoid.condition {q : Query} (avoid : q.SlotsAvoid table) {item : FromItem}
    (member : item ∈ q.fromList) {e : Expr} (among : e ∈ item.joinConditions)
    {slot : SubqueryKind × Query} (inSlots : slot ∈ e.slots) : slot.2.readsTable table = false := by
  refine avoid slot (List.mem_flatMap.mpr ⟨e, List.mem_append_right _ ?_, inSlots⟩)
  exact List.mem_flatMap.mpr ⟨item, member, among⟩

/-- Where expressions do not read the table, it is read through from-lists alone. -/
theorem drawsOn_of_readsTable {q : Query} (avoid : ∀ level ∈ q.levels, level.SlotsAvoid table)
    (reads : q.readsTable table = true) : q.drawsOn table = true := by
  have rule : LevelRule
      (fun q => (∀ level ∈ q.levels, level.SlotsAvoid table) → q.readsTable table = true
        → q.drawsOn table = true)
      (fun item => (∀ level ∈ item.levels, level.SlotsAvoid table)
        → (∀ e ∈ item.joinConditions, ∀ slot ∈ e.slots, slot.2.readsTable table = false)
        → (∃ t ∈ item.baseTables, t.name = table) → item.drawsOn table = true) := by
    constructor
    case level =>
      intro q items _ avoid reads
      have own : q.SlotsAvoid table := avoid q q.self_mem_levels
      obtain ⟨t, member, same⟩ := readsTable_iff.mp reads
      rcases mem_baseTables.mp member with ⟨item, inList, inItem⟩ | ⟨e, inExprs, slot, inSlots, inSlot⟩
      · refine q.drawsOn_iff.mpr ⟨item, inList, items item inList ?_ ?_ ⟨t, inItem, same⟩⟩
        · intro level inLevels
          apply avoid
          rw [levels_eq]
          exact List.mem_cons_of_mem _
            (List.mem_append_left _ (List.mem_flatMap.mpr ⟨item, inList, inLevels⟩))
        · exact fun e among slot inSlots => own.condition inList among inSlots
      · have unread := own.expr inExprs inSlots
        rw [readsTable_iff.mpr ⟨t, inSlot, same⟩] at unread
        cases unread
    case table =>
      rintro own _ _ ⟨t, member, same⟩
      rw [FromItem.baseTables_table, List.mem_singleton] at member
      exact decide_eq_true (member ▸ same)
    case derived => exact fun q ih avoid _ reads => ih avoid (readsTable_iff.mpr reads)
    case join =>
      rintro left right kind on ihLeft ihRight _ avoid conditions ⟨t, member, same⟩
      rw [FromItem.levels_join] at avoid
      rw [FromItem.joinConditions] at conditions
      simp only [List.mem_append] at avoid conditions
      simp only [FromItem.drawsOn, Bool.or_eq_true]
      rcases FromItem.mem_baseTables_join.mp member with inLeft | inRight | ⟨e, there, slot, inSlots, inSlot⟩
      · exact .inl (ihLeft (fun level below => avoid level (.inl (.inl below)))
          (fun e among => conditions e (.inl (.inl among))) ⟨t, inLeft, same⟩)
      · exact .inr (ihRight (fun level below => avoid level (.inl (.inr below)))
          (fun e among => conditions e (.inl (.inr among))) ⟨t, inRight, same⟩)
      · have unread := conditions e (.inr (by simp [there])) slot inSlots
        rw [readsTable_iff.mpr ⟨t, inSlot, same⟩] at unread
        cases unread
    case placeholder =>
      rintro ref _ _ ⟨t, member, _⟩
      cases member
  exact rule.query q avoid reads

/-- Derived tables are what rows have to pass through. -/
theorem rowsOnly_of_derived {q : Query} (rows : ∀ d ∈ q.directSubqueries, d.readsTable table = true →
    d.isAggregateLevel = false ∧ d.rowsOnly table = true) : q.rowsOnly table = true := by
  apply q.rowsOnly_iff.mpr
  intro item inList
  have rows (d) (member : d ∈ item.directSubqueries) := rows d (List.mem_flatMap.mpr ⟨item, inList, member⟩)
  clear inList
  induction item using FromItem.treeInduction with
  | table t => rfl
  | subquery d =>
    by_cases reads : d.readsTable table = true
    · simp [FromItem.rowsOnly, rows d List.mem_cons_self reads]
    · simp [FromItem.rowsOnly, reads]
  | join left right kind on ihLeft ihRight =>
    rw [FromItem.rowsOnly, ihLeft fun d member => rows d (List.mem_append_left _ member),
      ihRight fun d member => rows d (List.mem_append_right _ member)]
    rfl
  | placeholder ref => rfl

/-- What a derived table draws on comes to the level that reads it. -/
theorem drawsOn_of_derived {q d : Query} (member : d ∈ q.directSubqueries)
    (draws : d.drawsOn table = true) : q.drawsOn table = true := by
  obtain ⟨item, inList, inItem⟩ := List.mem_flatMap.mp member
  apply q.drawsOn_iff.mpr
  refine ⟨item, inList, ?_⟩
  clear inList
  induction item using FromItem.treeInduction with
  | table t => cases inItem
  | subquery other => exact List.mem_singleton.mp inItem ▸ draws
  | join left right kind on ihLeft ihRight =>
    rw [FromItem.drawsOn, Bool.or_eq_true]
    exact (List.mem_append.mp inItem).imp ihLeft ihRight
  | placeholder ref => cases inItem

variable (s : ScrambleMeta) (k : Nat) (scale : Float)

/-- A query that does not read the scramble is left as it is. -/
theorem restrictTo_eq_self {q : Query} (unread : q.readsTable s.name = false) :
    q.restrictTo s k scale = q := by
  have rule : LevelRule
      (fun q => (∀ t ∈ q.baseTables, t.name ≠ s.name) → q.restrictTo s k scale = q)
      (fun item => (∀ t ∈ item.baseTables, t.name ≠ s.name)
        → item.mapLevels (restrictLevel s k scale) = item) := by
    constructor
    case level =>
      intro q items slots absent
      have rows : q.readsRows s.name = false := by
        apply Bool.eq_false_iff.mpr
        intro reads
        obtain ⟨t, member, same⟩ := readsTable_iff.mp (readsTable_of_drawsOn (drawsOn_of_readsRows reads))
        exact absent t member same
      have refs : q.directRefs s.name = [] := by
        apply List.filter_eq_nil_iff.mpr
        intro t member
        have read : t ∈ q.baseTables := by
          rw [baseTables, levels_eq]
          exact List.mem_append_left _ member
        simpa using absent t read
      have parts : q.mapParts (FromItem.mapLevels (restrictLevel s k scale))
          (Expr.mapSlots fun slot => slot.restrictTo s k scale) = q := by
        apply mapParts_eq_self
        · intro item member
          exact items item member fun t inItem =>
            absent t (mem_baseTables.mpr (.inl ⟨item, member, inItem⟩))
        · intro e member
          apply Expr.mapSlots_eq_self
          intro slot inSlots
          exact slots e member slot inSlots fun t inSlot =>
            absent t (mem_baseTables.mpr (.inr ⟨e, member, slot, inSlots, inSlot⟩))
      rw [restrictTo_eq, parts, restrictLevel, boundBlocks, refs, rows]
      rfl
    case table => exact fun t _ => rfl
    case derived => exact fun q ih absent => congrArg FromItem.subquery (ih absent)
    case join =>
      intro left right kind on ihLeft ihRight slots absent
      have conditions : on.map (Expr.mapSlots (mapLevels (restrictLevel s k scale))) = on := by
        cases on with
        | none => rfl
        | some e =>
          apply congrArg some
          apply Expr.mapSlots_eq_self
          intro slot inSlots
          exact slots e rfl slot inSlots fun t inSlot =>
            absent t (FromItem.mem_baseTables_join.mpr (.inr (.inr ⟨e, rfl, slot, inSlots, inSlot⟩)))
      rw [FromItem.mapLevels_join, conditions,
        ihLeft fun t inLeft => absent t (FromItem.mem_baseTables_join.mpr (.inl inLeft)),
        ihRight fun t inRight => absent t (FromItem.mem_baseTables_join.mpr (.inr (.inl inRight)))]
    case placeholder => exact fun ref _ => rfl
  apply rule.query q
  intro t member same
  rw [readsTable_iff.mpr ⟨t, member, same⟩] at unread
  cases unread

/-- The levels of a restricted query are the levels of the query, each restricted. -/
theorem levels_restrictTo (q : Query) :
    (q.restrictTo s k scale).levels = q.levels.map fun level => level.restrictTo s k scale := by
  have rule : LevelRule
      (fun q => (q.restrictTo s k scale).levels = q.levels.map fun level => level.restrictTo s k scale)
      (fun item => (item.mapLevels (restrictLevel s k scale)).levels
        = item.levels.map fun level => level.restrictTo s k scale) := by
    have inSlots (e : Expr) (slots : ∀ slot ∈ e.slots, (slot.2.restrictTo s k scale).levels
        = slot.2.levels.map fun level => level.restrictTo s k scale) :
        (e.mapSlots fun slot => slot.restrictTo s k scale).levels
          = e.levels.map fun level => level.restrictTo s k scale := by
      rw [Expr.levels_eq, Expr.levels_eq, Expr.slots_mapSlots, List.flatMap_map, List.map_flatMap]
      exact List.flatMap_congr slots
    constructor
    case level =>
      intro q items slots
      have flat (es : List Expr) : es.flatMap Expr.levels
          = (es.flatMap Expr.slots).flatMap fun slot => slot.2.levels := by
        rw [List.flatMap_assoc]
        exact List.flatMap_congr fun e _ => e.levels_eq
      rw [levels_eq, levels_eq, List.map_cons, List.map_append, List.map_flatMap, List.map_flatMap]
      congr 1
      rw [restrictTo_eq, fromList_restrictLevel, flat, slots_restrictLevel, ← flat, fromList_mapParts,
        exprs_mapParts, List.flatMap_map, List.flatMap_map]
      exact congrArg₂ (· ++ ·) (List.flatMap_congr items)
        (List.flatMap_congr fun e member => inSlots e (slots e member))
    case table => exact fun t => rfl
    case derived => exact fun q ih => ih
    case join =>
      intro left right kind on ihLeft ihRight slots
      rw [FromItem.mapLevels_join, FromItem.levels_join, FromItem.levels_join, ihLeft, ihRight,
        List.map_append, List.map_append, List.map_flatMap, Option.toList_map, List.flatMap_map]
      congr 1
      apply List.flatMap_congr
      exact fun e member => inSlots e (slots e (Option.mem_toList.mp member))
    case placeholder => exact fun ref => rfl
  exact rule.query q

end Query

end ApproxQuery
