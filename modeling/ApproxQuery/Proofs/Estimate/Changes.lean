import ApproxQuery.Proofs.Estimate.Scaling
import ApproxQuery.Proofs.Query.Visits

/-! What an increment changes. Level by level, it bounds the block numbers of each reference to the scramble
and scales the totals over its rows. Without these bounds and factors it is the query again. -/
namespace ApproxQuery

/-- An expression without the queries in its slots. -/
def Expr.hollow (e : Expr) : Expr := e.mapSlots fun _ => default

/-- An item without the queries that it holds. A derived table keeps its alias. -/
def FromItem.hollow : FromItem → FromItem
  | .table t => .table t
  | .subquery query => .subquery { (default : Query) with asName := query.asName }
  | .join left right kind on => .join left.hollow right.hollow kind (on.map Expr.hollow)
  | .placeholder ref => .placeholder ref

/-- What a level holds of its own. -/
def Query.hollow (q : Query) : Query := q.mapParts FromItem.hollow Expr.hollow

/-- A condition and further ones, each conjoined behind those before it. -/
def Expr.conjoined : Option Expr → List Expr → Option Expr
  | clause, [] => clause
  | some e, bound :: rest => conjoined (some (e.and bound)) rest
  | none, bound :: rest => conjoined (some bound) rest

/-- What an increment changes at a level, apart from the queries that the level holds. -/
structure Query.Changed (s : ScrambleMeta) (k : Nat) (scale : Float) (before after : Query) : Prop where
  /-- Behind the condition that is there, the filter gains one bound for each reference to the scramble in the
  level's own join trees. -/
  filter : after.hollow.filter = Expr.conjoined before.hollow.filter ((before.directRefs s.name).map fun t =>
    .binary .lt (.column (some t.referenceName) s.blockColumn) (.literal (.int (Int64.ofNat k))))
  /-- Where the level reads rows of the scramble, each SUM and COUNT is multiplied by the scale. Every other call
  stays. -/
  calls : before.hollow.rewritten after.hollow = (before.hollow.scaledExprs.flatMap Expr.aggregates).map
    fun call => (call, if before.readsRows s.name && call.isTotal then
      .binary .mul call (.literal (.float scale)) else call)
  outputs : after.selectList.map SelectItem.asName = before.selectList.map SelectItem.asName
  sources : after.hollow.fromList = before.hollow.fromList
  groups : after.hollow.groupBy = before.hollow.groupBy
  directions : after.orderBy.map OrderItem.descending = before.orderBy.map OrderItem.descending
  limit : after.limit = before.limit
  asName : after.asName = before.asName

section Undoing

def Expr.isFloat : Expr → Bool
  | .literal (.float _) => true
  | _ => false

mutual

/-- Takes the factor off every SUM and COUNT that is multiplied by a number. Arguments and sub-queries are not
entered. -/
def Expr.unscaled : Expr → Expr
  | .func name args distinct =>
    if isAggregateFunction name then .func name args distinct
    else .func name (Expr.unscaledIn args) distinct
  | .binary op left right =>
    if op = .mul && left.isTotal && right.isFloat then left
    else .binary op left.unscaled right.unscaled
  | .not operand => .not operand.unscaled
  | .isNull operand negated => .isNull operand.unscaled negated
  | .inSubquery operand query negated => .inSubquery operand.unscaled query negated
  | .column table name => .column table name
  | .literal value => .literal value
  | .star table => .star table
  | .subquery query => .subquery query
  | .existsSubquery query negated => .existsSubquery query negated

def Expr.unscaledIn : List Expr → List Expr
  | [] => []
  | e :: rest => e.unscaled :: Expr.unscaledIn rest

end

/-- Leaves out the last condition of a conjunction, or the only one. -/
def Expr.withoutLast : Option Expr → Option Expr
  | some (.binary .and left _) => some left
  | _ => none

/-- Changes the outputs, HAVING and ORDER BY of a level. -/
def Query.mapOutputs (change : Expr → Expr) (q : Query) : Query :=
  { q with
    selectList := q.selectList.map fun item => { item with expr := change item.expr }
    having := q.having.map change
    orderBy := q.orderBy.map fun item => { item with expr := change item.expr } }

/-- Leaves out as many conditions as the level has references to the table, and the factors of its totals if
it reads the table's rows. -/
def Query.restoreLevel (table : TableName) (before level : Query) : Query :=
  { (if before.readsRows table then level.mapOutputs Expr.unscaled else level) with
    filter := Expr.withoutLast^[(before.directRefs table).length] level.filter }

/-- Deletes the bounds and the factors that an increment brings, at every level. -/
def Query.restored (table : TableName) (q : Query) : Query := q.mapLevels (restoreLevel table)

end Undoing

section Conjunctions

/-- Bounds that are no conjunctions themselves are the last ones of those conjoined. -/
theorem Expr.withoutLast_conjoined {bounds : List Expr} (clause : Option Expr)
    (plain : ∀ e ∈ bounds, ∀ left right, e ≠ .binary .and left right) :
    withoutLast^[bounds.length] (conjoined clause bounds) = clause := by
  induction bounds generalizing clause with
  | nil => cases clause <;> rfl
  | cons bound rest ih =>
    obtain ⟨own, later⟩ := List.forall_mem_cons.mp plain
    rw [List.length_cons, Function.iterate_succ_apply']
    cases clause with
    | some e =>
      rw [conjoined, ih _ later]
      rfl
    | none =>
      rw [conjoined, ih _ later, withoutLast]
      exact fun left right same => own left right (Option.some.inj same)

theorem Query.boundBlocks_eq_conjoined (s : ScrambleMeta) (k : Nat) (before level : Query) :
    boundBlocks s k before level = { level with
      filter := Expr.conjoined level.filter ((before.directRefs s.name).map (blocksBelow s.blockColumn k)) } := by
  unfold boundBlocks
  induction before.directRefs s.name generalizing level with
  | nil =>
    rcases level with ⟨selectList, fromList, filter, groupBy, having, orderBy, limit, asName⟩
    cases filter <;> rfl
  | cons t rest ih =>
    rw [List.foldl_cons, ih, List.map_cons]
    cases filter : level.filter <;> simp [addFilter, filter, Expr.conjoined]

end Conjunctions

section Factors

variable (scale : Float)

/-- In a scaled expression every SUM and COUNT is a factor. -/
theorem isTotal_scaleAggregates (e : Expr) : (scaleAggregates scale e).isTotal = false := by
  cases e
  case func name args distinct =>
    rw [scaleAggregates_eq, Expr.mapAggregates_func]
    by_cases aggregate : isAggregateFunction name = true
    · rw [if_pos aggregate, scaleCall]
      split
      · rfl
      · next unscaled => exact Bool.eq_false_iff.mpr unscaled
    · rw [if_neg aggregate]
      exact Bool.eq_false_iff.mpr fun total => aggregate (isAggregateFunction_of_scaled total)
  all_goals rfl

theorem unscaled_scaleAggregates (e : Expr) : (scaleAggregates scale e).unscaled = e := by
  refine ExprRule.expr (E := fun e => (scaleAggregates scale e).unscaled = e) ?_ e
  constructor
  case func =>
    intro name args distinct ih
    have inner : Expr.unscaledIn (args.map (scaleAggregates scale)) = args := by
      induction args with
      | nil => rfl
      | cons e rest later =>
        rw [List.map_cons, Expr.unscaledIn, ih e List.mem_cons_self,
          later fun e own => ih e (List.mem_cons_of_mem _ own)]
    rw [scaleAggregates_eq, Expr.mapAggregates_func]
    by_cases aggregate : isAggregateFunction name = true
    · rw [if_pos aggregate, scaleCall]
      split
      · next total => simp [Expr.unscaled, Expr.isTotal, Expr.isFloat, total]
      · rw [Expr.unscaled, if_pos aggregate]
    · rw [if_neg aggregate, Expr.unscaled, if_neg aggregate]
      exact congrArg (Expr.func name · distinct) inner
  case binary =>
    intro op left right ihLeft ihRight
    have parts : (scaleAggregates scale (.binary op left right)).unscaled
        = .binary op (scaleAggregates scale left).unscaled (scaleAggregates scale right).unscaled := by
      change (Expr.binary op (scaleAggregates scale left) (scaleAggregates scale right)).unscaled = _
      simp [Expr.unscaled, isTotal_scaleAggregates]
    rw [parts, ihLeft, ihRight]
  case not => exact fun operand ih => congrArg Expr.not ih
  case isNull => exact fun operand negated ih => congrArg (Expr.isNull · negated) ih
  case inSubquery => exact fun operand query negated ih => congrArg (Expr.inSubquery · query negated) ih
  all_goals intros; rfl

/-- A scaled call is still there, inside of its product. -/
theorem aggregates_scaleAggregates (e : Expr) : (scaleAggregates scale e).aggregates = e.aggregates := by
  refine ExprRule.expr (E := fun e => (scaleAggregates scale e).aggregates = e.aggregates) ?_ e
  constructor
  case func =>
    intro name args distinct ih
    rw [scaleAggregates_eq, Expr.mapAggregates_func]
    by_cases aggregate : isAggregateFunction name = true
    · rw [if_pos aggregate, scaleCall]
      split
      · exact List.append_nil _
      · rfl
    · rw [if_neg aggregate, Expr.aggregates, Expr.aggregates, if_neg aggregate, if_neg aggregate,
        Expr.aggregatesIn_eq, Expr.aggregatesIn_eq, List.flatMap_map]
      exact List.flatMap_congr ih
  case binary => exact fun op left right ihLeft ihRight => congrArg₂ (· ++ ·) ihLeft ihRight
  case not => exact fun operand ih => ih
  case isNull => exact fun operand negated ih => ih
  case inSubquery => exact fun operand query negated ih => ih
  all_goals intros; rfl

/-- Sub-queries change alike inside and outside of products. -/
theorem mapSlots_scaleAggregates (change : Query → Query) (e : Expr) :
    (scaleAggregates scale e).mapSlots change = scaleAggregates scale (e.mapSlots change) := by
  refine ExprRule.expr (E := fun e => (scaleAggregates scale e).mapSlots change
    = scaleAggregates scale (e.mapSlots change)) ?_ e
  constructor
  case func =>
    intro name args distinct ih
    rw [Expr.mapSlots_func, scaleAggregates_eq, scaleAggregates_eq, Expr.mapAggregates_func,
      Expr.mapAggregates_func]
    by_cases aggregate : isAggregateFunction name = true
    · rw [if_pos aggregate, if_pos aggregate, scaleCall, scaleCall]
      split
      · rw [Expr.mapSlots_binary, Expr.mapSlots_func, Expr.mapSlots_literal]
      · rw [Expr.mapSlots_func]
    · rw [if_neg aggregate, if_neg aggregate, Expr.mapSlots_func, List.map_map, List.map_map]
      exact congrArg (Expr.func name · distinct) (List.map_congr_left ih)
  case binary =>
    intro op left right ihLeft ihRight
    have inside (left right : Expr) : scaleAggregates scale (.binary op left right)
        = .binary op (scaleAggregates scale left) (scaleAggregates scale right) := rfl
    rw [Expr.mapSlots_binary, inside, inside, Expr.mapSlots_binary, ihLeft, ihRight]
  case not => exact fun operand ih => congrArg Expr.not ih
  case isNull => exact fun operand negated ih => congrArg (Expr.isNull · negated) ih
  case inSubquery =>
    exact fun operand query negated ih => congrArg (Expr.inSubquery · (change query) negated) ih
  all_goals intros; rfl

end Factors

namespace Query

variable (s : ScrambleMeta) (k : Nat) (scale : Float)

section Levels

variable (before level : Query)

/-- Bounds and factors come to a level alike before and after its sub-queries change. -/
theorem restrictLevel_mapParts (onItem : FromItem → FromItem) (change : Query → Query) :
    (restrictLevel s k scale before level).mapParts onItem (Expr.mapSlots change)
      = restrictLevel s k scale before (level.mapParts onItem (Expr.mapSlots change)) := by
  have bounded : (boundBlocks s k before level).mapParts onItem (Expr.mapSlots change)
      = boundBlocks s k before (level.mapParts onItem (Expr.mapSlots change)) := by
    unfold boundBlocks
    induction before.directRefs s.name generalizing level with
    | nil => rfl
    | cons t rest ih =>
      rw [List.foldl_cons, List.foldl_cons, ih]
      congr 1
      cases filter : level.filter <;> simp [addFilter, mapParts, filter, Expr.and, blocksBelow]
  have scaled (q : Query) : (q.scaled scale).mapParts onItem (Expr.mapSlots change)
      = (q.mapParts onItem (Expr.mapSlots change)).scaled scale := by
    simp [Query.scaled, mapParts, Function.comp_def, mapSlots_scaleAggregates]
  unfold restrictLevel
  split
  · rw [scaled, bounded]
  · exact bounded

/-- A walk that bounds and scales each level on its way in, as the level then stands, leaves the restriction. -/
theorem walkInPlace_restrictLevel (q : Query) : ∃ depth, ∀ d, depth ≤ d →
    q.walkInPlace (noting (inPlace (restrictLevel s k scale))) d ((), [])
      = some (q.restrictTo s k scale, (), q.levels) := by
  have slotted (level : Query) : (restrictLevel s k scale level level).slotted = level.slotted :=
    congrArg (List.map Prod.snd) (slots_restrictLevel s k scale level level)
  exact walkInPlace_mapLevels (fun level => fromList_restrictLevel s k scale level level) slotted
    (fun level onHeld => restrictLevel_mapParts s k scale level level _ onHeld) q

theorem scaledExprs_restrictLevel : (restrictLevel s k scale before level).scaledExprs
    = level.scaledExprs.map (Expr.mapAggregates (before.callChange scale s.name)) := by
  have bounded : (boundBlocks s k before level).scaledExprs = level.scaledExprs := by
    rw [boundBlocks_eq]
    rfl
  unfold restrictLevel
  split
  · next reads =>
    have change : before.callChange scale s.name = scaleCall scale := funext fun _ => if_pos reads
    have scaled (q : Query) : (q.scaled scale).scaledExprs = q.scaledExprs.map (scaleAggregates scale) := by
      simp [Query.scaled, scaledExprs, Function.comp_def, Option.toList_map]
    rw [scaled, bounded, change]
    rfl
  · next unread =>
    have change : before.callChange scale s.name = fun call => call := funext fun _ => if_neg unread
    rw [bounded, change, funext Expr.mapAggregates_id, List.map_id']

theorem filter_restrictLevel : (restrictLevel s k scale before level).filter
    = Expr.conjoined level.filter ((before.directRefs s.name).map (blocksBelow s.blockColumn k)) := by
  unfold restrictLevel
  split
  · exact congrArg Query.filter (boundBlocks_eq_conjoined s k before level)
  · exact congrArg Query.filter (boundBlocks_eq_conjoined s k before level)

theorem mapOutputs_scaled (q : Query) : (q.scaled scale).mapOutputs Expr.unscaled = q := by
  have columns := congrArg Query.selectList q.mapParts_id
  have keys := congrArg Query.orderBy q.mapParts_id
  rcases q with ⟨selectList, fromList, filter, groupBy, having, orderBy, limit, asName⟩
  simp only [mapParts] at columns keys
  simp [Query.scaled, mapOutputs, Function.comp_def, unscaled_scaleAggregates, columns, keys]

/-- The bounds and the factors are taken away again. -/
theorem restoreLevel_restrictLevel : restoreLevel s.name before (restrictLevel s k scale before level) = level := by
  have plain : ∀ e ∈ (before.directRefs s.name).map (blocksBelow s.blockColumn k),
      ∀ left right, e ≠ .binary .and left right := by
    refine List.forall_mem_map.mpr fun t _ left right same => ?_
    cases same
  have filter := Expr.withoutLast_conjoined level.filter plain
  rw [List.length_map] at filter
  have unscaled : (if before.readsRows s.name then
      (restrictLevel s k scale before level).mapOutputs Expr.unscaled else restrictLevel s k scale before level)
      = boundBlocks s k before level := by
    unfold restrictLevel
    split
    · exact mapOutputs_scaled scale _
    · rfl
  rw [restoreLevel, unscaled, filter_restrictLevel, filter, boundBlocks_eq]
  cases level
  rfl

end Levels

section Reading

theorem isAggregateLevel_restrictLevel (before level : Query) :
    (restrictLevel s k scale before level).isAggregateLevel = level.isAggregateLevel := by
  have contains (e : Expr) : (scaleAggregates scale e).containsAggregate = e.containsAggregate := by
    rw [Expr.containsAggregate, aggregates_scaleAggregates]
    rfl
  have bounded : (boundBlocks s k before level).isAggregateLevel = level.isAggregateLevel := by
    rw [boundBlocks_eq]
    rfl
  unfold restrictLevel
  split
  · rw [← bounded]
    simp [isAggregateLevel, Query.scaled, List.any_map, Option.any_map, Function.comp_def, contains]
  · exact bounded

theorem isAggregateLevel_restrictTo (q : Query) :
    (q.restrictTo s k scale).isAggregateLevel = q.isAggregateLevel := by
  rw [restrictTo_eq, isAggregateLevel_restrictLevel]
  exact isAggregateLevel_mapParts (Expr.containsAggregate_mapSlots _) q

/-- An increment reads the rows of the tables that its query reads. -/
theorem readsRows_restrictTo (table : TableName) (q : Query) :
    (q.restrictTo s k scale).readsRows table = q.readsRows table := by
  have rule : LevelRule (fun q => (q.restrictTo s k scale).readsRows table = q.readsRows table)
      fun item => (item.mapLevels (restrictLevel s k scale)).readsRows table = item.readsRows table := by
    constructor
    case level =>
      intro q items _
      apply Bool.eq_iff_iff.mpr
      rw [readsRows_iff, readsRows_iff, restrictTo_eq, fromList_restrictLevel, fromList_mapParts]
      simp only [List.mem_map, exists_exists_and_eq_and]
      exact exists_congr fun item => and_congr_right fun member => Bool.eq_iff_iff.mp (items item member)
    case table => exact fun t => rfl
    case derived =>
      intro q ih
      have aggregates := isAggregateLevel_restrictTo s k scale q
      rw [FromItem.mapLevels_subquery, FromItem.readsRows, FromItem.readsRows]
      exact congrArg₂ (fun a b => !a && b) aggregates ih
    case join =>
      intro left right kind on ihLeft ihRight _
      rw [FromItem.mapLevels_join, FromItem.readsRows, FromItem.readsRows, ihLeft, ihRight]
    case placeholder => exact fun ref => rfl
  exact rule.query q

theorem FromItem.directTables_mapLevels (change : Query → Query → Query) (item : FromItem) :
    (item.mapLevels change).directTables = item.directTables := by
  induction item using FromItem.treeInduction with
  | table t => rfl
  | subquery q => rfl
  | join left right kind on ihLeft ihRight =>
    rw [FromItem.mapLevels_join, FromItem.directTables, FromItem.directTables, ihLeft, ihRight]
  | placeholder ref => rfl

theorem directRefs_restrictTo (table : TableName) (q : Query) :
    (q.restrictTo s k scale).directRefs table = q.directRefs table := by
  have same : (q.restrictTo s k scale).directTables = q.directTables := by
    rw [directTables, restrictTo_eq, fromList_restrictLevel, fromList_mapParts, List.flatMap_map]
    exact List.flatMap_congr fun item _ => FromItem.directTables_mapLevels _ item
  rw [directRefs, directRefs, same]

end Reading

section Whole

/-- What a level holds of its own is bounded and scaled, whatever becomes of the queries in it. -/
theorem hollow_restrictTo (q : Query) :
    (q.restrictTo s k scale).hollow = restrictLevel s k scale q q.hollow := by
  have named (q : Query) : (q.restrictTo s k scale).asName = q.asName := by
    rw [restrictTo_eq, asName_restrictLevel, asName_mapParts]
  have items (item : FromItem) : (item.mapLevels (restrictLevel s k scale)).hollow = item.hollow := by
    induction item using FromItem.treeInduction with
    | table t => rfl
    | subquery q => exact congrArg (fun asName => FromItem.subquery { (default : Query) with asName }) (named q)
    | join left right kind on ihLeft ihRight =>
      rw [FromItem.mapLevels_join, FromItem.hollow, FromItem.hollow, ihLeft, ihRight, Option.map_map]
      congr 1
      exact Option.map_congr fun e _ => Expr.mapSlots_mapSlots _ _ e
    | placeholder ref => rfl
  rw [restrictTo_eq, hollow, hollow]
  refine (restrictLevel_mapParts s k scale _ _ _ _).trans (congrArg (restrictLevel s k scale q) ?_)
  rw [mapParts_mapParts]
  exact mapParts_congr (fun item _ => items item) fun e _ => Expr.mapSlots_mapSlots _ _ e

/-- Without its bounds and factors, a restricted query is the query again. -/
theorem restored_restrictTo (q : Query) : (q.restrictTo s k scale).restored s.name = q := by
  have rule : LevelRule (fun q => (q.restrictTo s k scale).restored s.name = q)
      fun item => (item.mapLevels (restrictLevel s k scale)).mapLevels (restoreLevel s.name) = item := by
    constructor
    case level =>
      intro q items slots
      have parts : (q.restrictTo s k scale).mapParts (FromItem.mapLevels (restoreLevel s.name))
          (Expr.mapSlots fun slot => slot.restored s.name) = restrictLevel s k scale q q := by
        rw [restrictTo_eq]
        refine (restrictLevel_mapParts s k scale _ _ _ _).trans (congrArg (restrictLevel s k scale q) ?_)
        rw [mapParts_mapParts]
        refine mapParts_eq_self items fun e own => ?_
        rw [Expr.mapSlots_mapSlots]
        exact Expr.mapSlots_eq_self (slots e own)
      have level : restoreLevel s.name (q.restrictTo s k scale) = restoreLevel s.name q := by
        funext level
        unfold restoreLevel
        rw [readsRows_restrictTo, directRefs_restrictTo]
      rw [restored, mapLevels_eq, level]
      exact (congrArg (restoreLevel s.name q) parts).trans (restoreLevel_restrictLevel s k scale q q)
    case table => exact fun t => rfl
    case derived => exact fun q ih => congrArg FromItem.subquery ih
    case join =>
      intro left right kind on ihLeft ihRight slots
      have condition : ∀ e ∈ on, (e.mapSlots (mapLevels (restrictLevel s k scale))).mapSlots
          (mapLevels (restoreLevel s.name)) = e := by
        intro e own
        rw [Expr.mapSlots_mapSlots]
        exact Expr.mapSlots_eq_self (slots e own)
      rw [FromItem.mapLevels_join, FromItem.mapLevels_join, ihLeft, ihRight, Option.map_map]
      exact congrArg (FromItem.join left right kind) ((Option.map_congr condition).trans Option.map_id')
    case placeholder => exact fun ref => rfl
  exact rule.query q

theorem changed_restrictTo (q : Query) : q.Changed s k scale (q.restrictTo s k scale) := by
  have keeps {β : Type} (part : Query → β) (level : Query) := restrictLevel_keeps s k scale q level part
  constructor
  case filter =>
    rw [hollow_restrictTo]
    exact filter_restrictLevel s k scale q q.hollow
  case calls =>
    have change (call : Expr) : q.callChange scale s.name call
        = if q.readsRows s.name && call.isTotal then .binary .mul call (.literal (.float scale)) else call := by
      cases total : call.isTotal with
      | true => rw [callChange_eq scale s.name q total, Bool.and_true]
      | false => rw [callChange_of_not_total scale s.name q total, Bool.and_false, if_neg Bool.false_ne_true]
    rw [hollow_restrictTo, rewritten, scaledExprs_restrictLevel, List.map_flatMap,
      ← List.map_prod_left_eq_zip, List.flatMap_map]
    simp only [Expr.rewritten_mapAggregates, change]
  case outputs =>
    rw [restrictTo_eq, keeps (fun level => level.selectList.map SelectItem.asName)]
    · simp [mapParts, Function.comp_def]
    · exact fun _ _ => rfl
    · simp [Query.scaled, Function.comp_def]
  case sources =>
    rw [hollow_restrictTo]
    exact keeps Query.fromList q.hollow (fun _ _ => rfl) fun _ => rfl
  case groups =>
    rw [hollow_restrictTo]
    exact keeps Query.groupBy q.hollow (fun _ _ => rfl) fun _ => rfl
  case directions =>
    rw [restrictTo_eq, keeps (fun level => level.orderBy.map OrderItem.descending)]
    · simp [mapParts, Function.comp_def]
    · exact fun _ _ => rfl
    · simp [Query.scaled, Function.comp_def]
  case limit =>
    rw [restrictTo_eq, keeps Query.limit]
    · rfl
    · exact fun _ _ => rfl
    · exact fun _ => rfl
  case asName =>
    rw [restrictTo_eq, keeps Query.asName]
    · rfl
    · exact fun _ _ => rfl
    · exact fun _ => rfl

end Whole

end Query

/-- Over a validated scramble there is an increment for every prefix of the blocks. The last one is the query
itself. Any other changes each level, and no more than that: without the bounds and the factors it is the query
again. -/
theorem Query.increment_changes_only {raw s : ScrambleMeta} {k : Nat} (validated : raw.validated = .ok s)
    (started : 0 < k) (within : k ≤ s.blockCount) (q : Query) :
    ∃ r, q.increment s k = .ok r ∧ (k = s.blockCount → r = q)
      ∧ (k < s.blockCount → ∃ scale, s.scaleFactor k = some scale
        ∧ List.Forall₂ (Changed s k scale) q.levels r.levels ∧ r.restored s.name = q) := by
  have covered := ScrambleMeta.covered_of_check (ScrambleMeta.check_of_validated validated)
  obtain ⟨scale, factor⟩ := covered.scaleFactor started within
  by_cases last : k = s.blockCount
  · refine ⟨q, ?_, fun _ => rfl, fun earlier => absurd last (Nat.ne_of_lt earlier)⟩
    rw [last]
    exact increment_blockCount covered q
  · refine ⟨q.restrictTo s k scale, ?_, fun same => absurd same last, fun _ => ⟨scale, factor, ?_, ?_⟩⟩
    · unfold increment
      simp [Nat.ne_of_gt started, Nat.not_lt.mpr within, last, factor]
    · rw [levels_restrictTo, List.forall₂_map_right_iff]
      exact List.forall₂_same.mpr fun level _ => changed_restrictTo s k scale level
    · exact restored_restrictTo s k scale q

section Sample

/-- `SELECT sum(a.x) FROM shop.orders AS a LEFT JOIN shop.orders AS b ON a.x IN (SELECT count(*) AS n FROM
shop.orders) WHERE a.x`. -/
def Query.joinedOrders : Query :=
  let x : Expr := .column (some "a") "x"
  ⟨[⟨.func "sum" [x] false, none⟩],
    [.join (.table ⟨"shop", "orders", some "a"⟩) (.table ⟨"shop", "orders", some "b"⟩) .left
      (some (.inSubquery x countedOrders false))], some x, [], none, [], none, none⟩

theorem Query.joinedOrders_changes_only : ordersInHalves.validated = .ok ordersInHalves
    ∧ ∃ r scale, joinedOrders.increment ordersInHalves 1 = .ok r ∧ ordersInHalves.scaleFactor 1 = some scale
      ∧ List.Forall₂ (Changed ordersInHalves 1 scale) joinedOrders.levels r.levels
      ∧ r.restored ordersInHalves.name = joinedOrders := by
  have validated : ordersInHalves.validated = .ok ordersInHalves := rfl
  obtain ⟨r, made, _, changes⟩ := increment_changes_only (k := 1) validated Nat.one_pos (Nat.le_succ 1) joinedOrders
  obtain ⟨scale, factor, levels, restored⟩ := changes Nat.one_lt_two
  exact ⟨validated, r, scale, made, factor, levels, restored⟩

end Sample

end ApproxQuery
