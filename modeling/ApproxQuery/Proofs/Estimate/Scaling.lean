import ApproxQuery.Proofs.Estimate.Rows
import Mathlib.Data.List.Forall2

/-! Every total is scaled once. Where a level sees rows of the scramble its own calls are scaled;
where it adds up totals of derived tables, these have been scaled already. -/
namespace ApproxQuery

/-- A call of SUM or COUNT. -/
def Expr.isTotal : Expr → Bool
  | .func name _ _ => isScaledAggregate name
  | _ => false

def Expr.isProduct : Expr → Bool
  | .binary .mul _ _ => true
  | _ => false

mutual

/-- The aggregate calls of an expression, each with what stands in its place in a rewritten copy. -/
def Expr.rewritten : Expr → Expr → List (Expr × Expr)
  | .func name args distinct, after =>
    if isAggregateFunction name then [(.func name args distinct, after)]
    else match after with
      | .func _ args' _ => Expr.rewrittenIn args args'
      | _ => []
  | .binary _ left right, .binary _ left' right' => left.rewritten left' ++ right.rewritten right'
  | .not operand, .not operand' => operand.rewritten operand'
  | .isNull operand _, .isNull operand' _ => operand.rewritten operand'
  | .inSubquery operand _ _, .inSubquery operand' _ _ => operand.rewritten operand'
  | _, _ => []

def Expr.rewrittenIn : List Expr → List Expr → List (Expr × Expr)
  | e :: rest, e' :: rest' => e.rewritten e' ++ Expr.rewrittenIn rest rest'
  | _, _ => []

end

mutual

/-- How often the scale has come into the value of a call at some level: once if the call itself was
multiplied, and as often as into a column that it takes from an aggregated derived table over the
scramble. -/
def Query.factors (table : TableName) : Query → Query → Expr → Expr → Nat
  | ⟨_, fromList, _, _, _, _, _, _⟩, after, call, replacement =>
    (if replacement.isProduct then 1 else 0)
      + match call with
        | .func _ [.column qualifier column] _ =>
          FromItem.factorsIn table qualifier column fromList after.fromList
        | _ => 0
termination_by structural before => before

/-- The factors of the call that produces a column, if that call stands in a derived table that
aggregates and reads the scramble. -/
def FromItem.factors (table : TableName) (qualifier : Option String) (column : String) :
    FromItem → FromItem → Nat
  | .subquery d, .subquery d' =>
    if d.isAggregateLevel && d.readsTable table && (qualifier.isNone || qualifier = d.asName) then
      match (d.selectList.zip d'.selectList).find? fun pair => pair.1.asName = some column with
      | some (output, output') =>
        if output.expr.isAggregateCall then d.factors table d' output.expr output'.expr else 0
      | none => 0
    else 0
  | .join left right _ _, .join left' right' _ _ =>
    left.factors table qualifier column left' + right.factors table qualifier column right'
  | _, _ => 0
termination_by structural before => before

def FromItem.factorsIn (table : TableName) (qualifier : Option String) (column : String) :
    List FromItem → List FromItem → Nat
  | item :: rest, item' :: rest' =>
    item.factors table qualifier column item'
      + FromItem.factorsIn table qualifier column rest rest'
  | _, _ => 0
termination_by structural before => before

end

namespace Query

/-- The calls in the select list, HAVING and ORDER BY of a level, each with what stands in its place
in a rewritten copy. -/
def rewritten (before after : Query) : List (Expr × Expr) :=
  (before.scaledExprs.zip after.scaledExprs).flatMap fun pair => pair.1.rewritten pair.2

/-- Derived tables and outputs of a level are told apart by their names. -/
structure NamesDistinct (q : Query) : Prop where
  derived : (q.directSubqueries.filterMap Query.asName).Nodup
  outputs : (q.selectList.filterMap SelectItem.asName).Nodup

/-- A level in which every total has been scaled exactly once. -/
structure ScaledOnce (table : TableName) (scale : Float) (before after : Query) : Prop where
  /-- No call is lost. -/
  calls : (before.rewritten after).map Prod.fst = before.scaledExprs.flatMap Expr.aggregates
  /-- Each is left alone, or it is a SUM or COUNT and multiplied by the scale. -/
  kept : ∀ pair ∈ before.rewritten after, pair.2 = pair.1
    ∨ pair.1.isTotal = true ∧ pair.2 = .binary .mul pair.1 (.literal (.float scale))
  /-- The scale comes into the totals of a level that aggregates once if rows of the table come to
  it, and not at all otherwise. -/
  once : before.isAggregateLevel = true → ∀ pair ∈ before.rewritten after, pair.1.isTotal = true →
    before.factors table after pair.1 pair.2 = if before.drawsOn table then 1 else 0
  /-- No other clause is scaled. -/
  groupBy : after.groupBy = before.groupBy
  conditions : after.joinConditions = before.joinConditions
  filter : ∃ bounds : List Expr, (∀ e ∈ bounds, e.aggregates = [])
    ∧ after.filter = (bounds.foldl addFilter before).filter

end Query

section Rewriting

theorem isAggregateFunction_of_scaled {name : String} (scaled : isScaledAggregate name = true) :
    isAggregateFunction name = true := by
  simp only [isScaledAggregate, scaledAggregates, isAggregateFunction, aggregateFunctions,
    List.contains_cons, Bool.or_eq_true, List.contains_nil, Bool.false_eq_true, or_false] at scaled ⊢
  exact scaled.imp_right .inl

theorem Expr.isAggregateCall_of_total {e : Expr} (total : e.isTotal = true) :
    e.isAggregateCall = true := by
  cases e
  case func name args distinct => exact isAggregateFunction_of_scaled total
  all_goals cases total

theorem Expr.aggregates_of_call {e : Expr} (call : e.isAggregateCall = true) : e.aggregates = [e] := by
  cases e
  case func name args distinct => exact if_pos call
  all_goals cases call

theorem Expr.mapAggregates_of_call (change : Expr → Expr) {e : Expr} (call : e.isAggregateCall = true) :
    e.mapAggregates change = change e := by
  cases e
  case func name args distinct => exact (mapAggregates_func change name args distinct).trans (if_pos call)
  all_goals cases call

/-- A copy with changed calls holds each of them where the call was. -/
theorem Expr.rewritten_mapAggregates (change : Expr → Expr) (e : Expr) :
    e.rewritten (e.mapAggregates change) = e.aggregates.map fun call => (call, change call) := by
  refine ExprRule.expr (E := fun e => e.rewritten (e.mapAggregates change)
    = e.aggregates.map fun call => (call, change call)) ?_ e
  constructor
  case func =>
    intro name args distinct ih
    have rest : rewrittenIn args (args.map (mapAggregates change))
        = (args.flatMap aggregates).map fun call => (call, change call) := by
      induction args with
      | nil => rfl
      | cons e rest later =>
        rw [List.map_cons, rewrittenIn, List.flatMap_cons, List.map_append, ih e List.mem_cons_self,
          later fun e member => ih e (List.mem_cons_of_mem _ member)]
    by_cases aggregate : isAggregateFunction name = true
    · simp only [mapAggregates_func, aggregates, rewritten, aggregate]
      rfl
    · simp only [mapAggregates_func, aggregates, aggregatesIn_eq, rewritten, aggregate]
      exact rest
  case binary =>
    intro op left right ihLeft ihRight
    rw [aggregates, List.map_append, ← ihLeft, ← ihRight]
    rfl
  case not => exact fun operand ih => ih
  case isNull => exact fun operand negated ih => ih
  case inSubquery => exact fun operand query negated ih => ih
  all_goals intros; rfl

namespace Query

variable (s : ScrambleMeta) (k : Nat) (scale : Float)

/-- What becomes of the calls of a level when the query is restricted. -/
def callChange (table : TableName) (q : Query) (call : Expr) : Expr :=
  if q.readsRows table then scaleCall scale call else call

private theorem filter_boundBlocks (before : Query) {level level' : Query}
    (same : level.filter = level'.filter) :
    (boundBlocks s k before level).filter = (boundBlocks s k before level').filter := by
  unfold boundBlocks
  induction before.directRefs s.name generalizing level level' with
  | nil => exact same
  | cons t rest ih =>
    apply ih
    simp only [addFilter, same]

/-- What a restriction does to a level whose expressions do not read the scramble. -/
theorem restrictTo_of_avoid {q : Query} (avoid : q.SlotsAvoid s.name) :
    q.restrictTo s k scale = { q with
      selectList := q.selectList.map fun item =>
        { item with expr := item.expr.mapAggregates (q.callChange scale s.name) }
      fromList := q.fromList.map (FromItem.mapLevels (restrictLevel s k scale))
      filter := (boundBlocks s k q q).filter
      having := q.having.map (Expr.mapAggregates (q.callChange scale s.name))
      orderBy := q.orderBy.map fun item =>
        { item with expr := item.expr.mapAggregates (q.callChange scale s.name) } } := by
  have exprs : q.mapParts (FromItem.mapLevels (restrictLevel s k scale))
      (Expr.mapSlots fun slot => slot.restrictTo s k scale)
      = q.mapParts (FromItem.mapLevels (restrictLevel s k scale)) fun e => e := by
    apply mapParts_congr (fun _ _ => rfl)
    intro e member
    apply Expr.mapSlots_eq_self
    exact fun slot inSlots => restrictTo_eq_self s k scale (avoid.expr member inSlots)
  have only : q.mapParts (FromItem.mapLevels (restrictLevel s k scale)) (fun e => e)
      = { q with fromList := q.fromList.map (FromItem.mapLevels (restrictLevel s k scale)) } :=
    congrArg (fun r : Query => { r with
      fromList := q.fromList.map (FromItem.mapLevels (restrictLevel s k scale)) }) q.mapParts_id
  have filter : (boundBlocks s k q { q with
      fromList := q.fromList.map (FromItem.mapLevels (restrictLevel s k scale)) }).filter
      = (boundBlocks s k q q).filter := filter_boundBlocks s k q rfl
  rw [restrictTo_eq, exprs, only, restrictLevel, boundBlocks_eq, filter]
  by_cases reads : q.readsRows s.name = true
  · have change : q.callChange scale s.name = scaleCall scale :=
      funext fun call => if_pos reads
    rw [if_pos reads, change]
    rfl
  · have change : q.callChange scale s.name = fun call => call :=
      funext fun call => if_neg reads
    rw [if_neg reads, change]
    have same := congrArg (fun r : Query => { r with
      fromList := q.fromList.map (FromItem.mapLevels (restrictLevel s k scale))
      filter := (boundBlocks s k q q).filter
      groupBy := q.groupBy }) q.mapParts_id
    simp only [funext Expr.mapAggregates_id]
    exact same.symm

/-- The calls of a restricted level. -/
theorem rewritten_restrictTo {q : Query} (avoid : q.SlotsAvoid s.name) :
    q.rewritten (q.restrictTo s k scale)
      = (q.scaledExprs.flatMap Expr.aggregates).map fun call => (call, q.callChange scale s.name call) := by
  have after : (q.restrictTo s k scale).scaledExprs
      = q.scaledExprs.map (Expr.mapAggregates (q.callChange scale s.name)) := by
    rw [restrictTo_of_avoid s k scale avoid]
    simp [scaledExprs, Function.comp_def, Option.toList_map]
  rw [rewritten, after, List.map_flatMap, ← List.map_prod_left_eq_zip, List.flatMap_map]
  exact List.flatMap_congr fun e _ => e.rewritten_mapAggregates _

theorem callChange_eq (table : TableName) (q : Query) {call : Expr} (total : call.isTotal = true) :
    q.callChange scale table call
      = if q.readsRows table then .binary .mul call (.literal (.float scale)) else call := by
  unfold callChange
  cases call
  case func name args distinct =>
    have scaled : isScaledAggregate name = true := total
    rw [scaleCall, if_pos scaled]
  all_goals cases total

theorem callChange_of_not_total (table : TableName) (q : Query) {call : Expr}
    (other : call.isTotal = false) : q.callChange scale table call = call := by
  unfold callChange
  cases call
  case func name args distinct =>
    have unscaled : isScaledAggregate name = false := other
    rw [scaleCall, unscaled]
    exact ite_self _
  all_goals exact ite_self _

end Query

end Rewriting

section Accepting

variable {table : TableName}

/-- What the totals of a level say of its derived tables. -/
structure Query.Totalled (table : TableName) (derived : List Query) (totals : Totals) : Prop where
  rows : ∀ d ∈ derived, d.readsTable table = true → d.isAggregateLevel = false →
    d.rowsOnly table = true
  named : ∀ d ∈ derived, d.readsTable table = true → d.isAggregateLevel = true →
    ∃ asName outputs, d.asName = some asName ∧ totals.find? asName = some outputs
  scaled : ∀ {asName outputs}, totals.find? asName = some outputs → ∃ d ∈ derived,
    d.readsTable table = true ∧ d.isAggregateLevel = true ∧ d.asName = some asName
      ∧ outputs = d.scaledOutputs

namespace Query

variable {before derived : List Query} {totals start : Totals} {d : Query}

/-- A derived table that brings no totals. -/
theorem Totalled.skip (totalled : Totalled table before totals)
    (passes : d.readsTable table = true → d.isAggregateLevel = false ∧ d.rowsOnly table = true) :
    Totalled table (before ++ [d]) totals := by
  constructor
  case rows =>
    intro d' member reads level
    rcases List.mem_append.mp member with earlier | same
    · exact totalled.rows d' earlier reads level
    · cases List.mem_singleton.mp same
      exact (passes reads).2
  case named =>
    intro d' member reads aggregates
    rcases List.mem_append.mp member with earlier | same
    · exact totalled.named d' earlier reads aggregates
    · cases List.mem_singleton.mp same
      rw [(passes reads).1] at aggregates
      cases aggregates
  case scaled =>
    intro asName outputs found
    obtain ⟨d', member, facts⟩ := totalled.scaled found
    exact ⟨d', List.mem_append_left _ member, facts⟩

/-- A derived table that brings totals of its own. -/
theorem Totalled.insert (totalled : Totalled table before totals) (reads : d.readsTable table = true)
    (aggregates : d.isAggregateLevel = true) {asName : String} (named : d.asName = some asName) :
    Totalled table (before ++ [d]) (totals.insert asName d.scaledOutputs) := by
  constructor
  case rows =>
    intro d' member reads' level
    rcases List.mem_append.mp member with earlier | same
    · exact totalled.rows d' earlier reads' level
    · rw [List.mem_singleton.mp same, aggregates] at level
      cases level
  case named =>
    intro d' member reads' aggregates'
    rcases List.mem_append.mp member with earlier | same
    · obtain ⟨other, outputs, called, there⟩ := totalled.named d' earlier reads' aggregates'
      by_cases again : asName = other
      · exact ⟨other, d.scaledOutputs, called, by rw [AscendingMap.find?_insert, if_pos again]⟩
      · exact ⟨other, outputs, called, by rw [AscendingMap.find?_insert, if_neg again, there]⟩
    · cases List.mem_singleton.mp same
      exact ⟨asName, d.scaledOutputs, named, by rw [AscendingMap.find?_insert, if_pos rfl]⟩
  case scaled =>
    intro other outputs there
    rw [AscendingMap.find?_insert] at there
    split at there
    · rename_i again
      cases there
      exact ⟨d, List.mem_append_right _ List.mem_cons_self, reads, aggregates, again ▸ named, rfl⟩
    · obtain ⟨d', member, facts⟩ := totalled.scaled there
      exact ⟨d', List.mem_append_left _ member, facts⟩

private theorem totalled_run (totalled : Totalled table before start)
    (found : totalsOf table start derived = some totals) : Totalled table (before ++ derived) totals := by
  induction derived generalizing before start with
  | nil =>
    cases found
    rwa [List.append_nil]
  | cons d rest ih =>
    rw [List.append_cons]
    unfold totalsOf at found
    by_cases reads : d.readsTable table = true
    · by_cases aggregates : d.isAggregateLevel = true
      · cases named : d.asName with
        | none => simp [reads, aggregates, named] at found
        | some asName =>
          simp only [reads, aggregates, named] at found
          exact ih (totalled.insert reads aggregates named) found
      · by_cases only : d.rowsOnly table = true
        · simp only [reads, aggregates, only] at found
          exact ih (totalled.skip fun _ => ⟨Bool.eq_false_iff.mpr aggregates, only⟩) found
        · simp [reads, aggregates, only] at found
    · simp only [reads] at found
      exact ih (totalled.skip fun reads' => absurd reads' reads) found

/-- The totals that are found for a level are those of its derived tables. -/
theorem totalled_of_totalsOf (found : totalsOf table .empty derived = some totals) :
    Totalled table derived totals := by
  have none : Totalled table [] .empty :=
    ⟨fun _ member => (nomatch member), fun _ member => (nomatch member),
      fun there => (nomatch there)⟩
  exact totalled_run none found

/-- Without totals no derived table that reads the table aggregates. -/
theorem Totalled.rows_of_isEmpty (totalled : Totalled table derived totals) (none : totals.isEmpty = true)
    (member : d ∈ derived) (reads : d.readsTable table = true) :
    d.isAggregateLevel = false ∧ d.rowsOnly table = true := by
  have level : d.isAggregateLevel = false := by
    apply Bool.eq_false_iff.mpr
    intro aggregates
    obtain ⟨asName, outputs, _, found⟩ := totalled.named d member reads aggregates
    rcases totals with ⟨_ | _⟩
    · cases found
    · cases none
  exact ⟨level, totalled.rows d member reads level⟩

theorem exists_total_of_scaledOutputs {column : String} (listed : column ∈ d.scaledOutputs) :
    ∃ output ∈ d.selectList, output.asName = some column ∧ output.expr.isTotal = true := by
  obtain ⟨output, selected, produces⟩ := List.mem_filterMap.mp listed
  refine ⟨output, selected, ?_⟩
  unfold SelectItem.totalName at produces
  split at produces
  · rename_i name args distinct call
    split at produces
    · rename_i plain
      rw [Bool.and_eq_true] at plain
      exact ⟨produces, call ▸ plain.2⟩
    · cases produces
  · cases produces

theorem exists_of_isSummedBy {call : Expr} (summed : totals.isSummedBy call = true) :
    ∃ name asName column outputs, call = .func name [.column (some asName) column] false
      ∧ totals.find? asName = some outputs ∧ column ∈ outputs := by
  unfold Totals.isSummedBy at summed
  split at summed
  · rename_i name asName column
    rw [Bool.and_eq_true, List.contains_iff_mem] at summed
    cases found : totals.find? asName with
    | none => simp [found] at summed
    | some outputs => exact ⟨name, asName, column, outputs, rfl, found, by simpa [found] using summed.2⟩
  · cases summed

/-- Why a level that can be scaled has its totals scaled once. Either it aggregates nothing that was
aggregated before, or it sees no rows and sums totals. -/
structure Scalable (table : TableName) (q : Query) (totals : Totals) : Prop where
  totalled : Totalled table q.directSubqueries totals
  summed : totals.isEmpty = false → q.readsRows table = false ∧ q.sumsTotals totals = true

theorem scalable_of_accepted {q : Query} (accepted : q.levelUnscalable table = none) :
    q.SlotsAvoid table ∧ (q.isAggregateLevel = true → ∃ totals, q.Scalable table totals) := by
  unfold levelUnscalable at accepted
  split at accepted
  · cases accepted
  · rename_i avoid
    constructor
    · intro slot member
      apply Bool.eq_false_iff.mpr
      intro reads
      exact avoid (List.any_eq_true.mpr ⟨slot, member, reads⟩)
    · intro aggregates
      rw [aggregates] at accepted
      cases found : totalsOf table .empty q.directSubqueries with
      | none => simp [found] at accepted
      | some totals =>
        refine ⟨totals, totalled_of_totalsOf found, fun some => ?_⟩
        simpa [found, some] using accepted

end Query

end Accepting

namespace Query

section Factors

variable {table : TableName} (s : ScrambleMeta) (k : Nat) (scale : Float)

/-- Where names are distinct, the first item of a name is the only one. -/
private theorem find?_of_nodup {α : Type} {name : α → Option String} {items : List α} {item : α}
    {own : String} (distinct : (items.filterMap name).Nodup) (member : item ∈ items)
    (named : name item = some own) : items.find? (fun other => name other = some own) = some item := by
  induction items with
  | nil => cases member
  | cons first rest ih =>
    by_cases same : name first = some own
    · rw [List.find?_cons_of_pos (by simpa using same)]
      rcases List.mem_cons.mp member with rfl | later
      · rfl
      · rw [List.filterMap_cons_some same] at distinct
        have again : own ∈ rest.filterMap name := List.mem_filterMap.mpr ⟨item, later, named⟩
        exact absurd again (List.nodup_cons.mp distinct).1
    · rw [List.find?_cons_of_neg (by simpa using same)]
      have later : item ∈ rest := (List.mem_cons.mp member).resolve_left fun first =>
        same (first ▸ named)
      apply ih _ later
      exact distinct.sublist ((List.sublist_cons_self first rest).filterMap name)

/-- Where names are distinct, a weight that only items of one name have is that of one item. -/
private theorem sum_of_nodup {α : Type} {name : α → Option String} {items : List α} {item : α}
    {own : String} {weight : α → Nat} (distinct : (items.filterMap name).Nodup) (member : item ∈ items)
    (named : name item = some own) (others : ∀ other, name other ≠ some own → weight other = 0) :
    (items.map weight).sum = weight item := by
  induction items with
  | nil => cases member
  | cons first rest ih =>
    rw [List.map_cons, List.sum_cons]
    by_cases same : name first = some own
    · rw [List.filterMap_cons_some same] at distinct
      obtain ⟨fresh, _⟩ := List.nodup_cons.mp distinct
      have only (other) (later : other ∈ rest) : name other ≠ some own := fun again =>
        fresh (List.mem_filterMap.mpr ⟨other, later, again⟩)
      have none : (rest.map weight).sum = 0 := by
        apply List.sum_eq_zero
        intro summand inMap
        obtain ⟨other, later, rfl⟩ := List.mem_map.mp inMap
        exact others other (only other later)
      rcases List.mem_cons.mp member with rfl | later
      · rw [none, Nat.add_zero]
      · exact absurd named (only item later)
    · have later : item ∈ rest := (List.mem_cons.mp member).resolve_left fun first =>
        same (first ▸ named)
      rw [others first same, Nat.zero_add]
      apply ih _ later
      exact distinct.sublist ((List.sublist_cons_self first rest).filterMap name)

/-- The factors in a column are those in the columns of that name of all derived tables. -/
private theorem factors_mapLevels (qualifier : Option String) (column : String) (item : FromItem) :
    item.factors table qualifier column (item.mapLevels (restrictLevel s k scale))
      = (item.directSubqueries.map fun d => FromItem.factors table qualifier column (.subquery d)
          (.subquery (d.restrictTo s k scale))).sum := by
  induction item using FromItem.treeInduction with
  | table t => rfl
  | subquery d => exact (Nat.add_zero _).symm
  | join left right kind on ihLeft ihRight =>
    rw [FromItem.mapLevels_join, FromItem.factors, FromItem.directSubqueries, List.map_append,
      List.sum_append, ihLeft, ihRight]
  | placeholder ref => rfl

private theorem factorsIn_restrictTo (qualifier : Option String) (column : String) (q : Query) :
    FromItem.factorsIn table qualifier column q.fromList (q.restrictTo s k scale).fromList
      = (q.directSubqueries.map fun d =>
          FromItem.factors table qualifier column (.subquery d) (.subquery (d.restrictTo s k scale))).sum := by
  rw [restrictTo_eq, fromList_restrictLevel, fromList_mapParts, directSubqueries]
  induction q.fromList with
  | nil => rfl
  | cons item rest ih =>
    rw [List.map_cons, FromItem.factorsIn, List.flatMap_cons, List.map_append, List.sum_append, ih,
      factors_mapLevels]

private theorem factors_func_column (q after : Query) (name : String) (qualifier : Option String)
    (column : String) (distinct : Bool) (replacement : Expr) :
    q.factors table after (.func name [.column qualifier column] distinct) replacement
      = (if replacement.isProduct then 1 else 0)
        + FromItem.factorsIn table qualifier column q.fromList after.fromList := by
  cases q
  rfl

/-- Where no derived table over the scramble aggregates, only the call itself is scaled. -/
theorem factors_of_rows {q : Query} (rows : ∀ d ∈ q.directSubqueries, d.readsTable table = true →
    d.isAggregateLevel = false) (call replacement : Expr) :
    q.factors table (q.restrictTo s k scale) call replacement
      = if replacement.isProduct then 1 else 0 := by
  have none (qualifier : Option String) (column : String) :
      FromItem.factorsIn table qualifier column q.fromList (q.restrictTo s k scale).fromList = 0 := by
    rw [factorsIn_restrictTo]
    apply List.sum_eq_zero
    intro summand inMap
    obtain ⟨d, member, rfl⟩ := List.mem_map.mp inMap
    rw [FromItem.factors]
    by_cases reads : d.readsTable table = true
    · simp [rows d member reads]
    · simp [reads]
  cases q
  apply Nat.add_eq_left.mpr
  split
  · exact none _ _
  · rfl

/-- A call that adds up an output of an aggregated derived table over the scramble carries the
factors of that output. -/
theorem factors_of_total {q d : Query} (names : (q.directSubqueries.filterMap Query.asName).Nodup)
    (member : d ∈ q.directSubqueries) (reads : d.readsTable table = true)
    (aggregates : d.isAggregateLevel = true) {asName : String} (named : d.asName = some asName)
    (outputs : (d.selectList.filterMap SelectItem.asName).Nodup) {output : SelectItem}
    (selected : output ∈ d.selectList) {column : String} (called : output.asName = some column)
    (call : output.expr.isAggregateCall = true) (avoid : d.SlotsAvoid s.name)
    (name : String) (distinct : Bool) (replacement : Expr) :
    q.factors table (q.restrictTo s k scale) (.func name [.column (some asName) column] distinct)
        replacement
      = (if replacement.isProduct then 1 else 0) + d.factors table (d.restrictTo s k scale) output.expr
          (output.expr.mapAggregates (d.callChange scale s.name)) := by
  have selectList : (d.restrictTo s k scale).selectList = d.selectList.map fun item =>
      { item with expr := item.expr.mapAggregates (d.callChange scale s.name) } := by
    rw [restrictTo_of_avoid s k scale avoid]
  have others (other : Query) (different : other.asName ≠ some asName) :
      FromItem.factors table (some asName) column (.subquery other)
        (.subquery (other.restrictTo s k scale)) = 0 := by
    rw [FromItem.factors]
    simp [Ne.symm different]
  rw [factors_func_column, factorsIn_restrictTo, sum_of_nodup names member named others,
    FromItem.factors, selectList, ← List.map_prod_left_eq_zip, List.find?_map]
  rw [Function.comp_def]
  simp [find?_of_nodup outputs selected called, reads, aggregates, named, call]

/-- The totals of a level that adds up nothing aggregated before are scaled where it sees rows. -/
private theorem once_of_rows {q : Query}
    (rows : ∀ d ∈ q.directSubqueries, d.readsTable s.name = true →
      d.isAggregateLevel = false ∧ d.rowsOnly s.name = true) {call : Expr} (total : call.isTotal = true) :
    q.factors s.name (q.restrictTo s k scale) call (q.callChange scale s.name call)
      = if q.drawsOn s.name then 1 else 0 := by
  have same : q.readsRows s.name = q.drawsOn s.name := by
    apply Bool.eq_iff_iff.mpr
    exact ⟨drawsOn_of_readsRows, readsRows_of_rowsOnly (rowsOnly_of_derived rows)⟩
  have unscaled : call.isProduct = false := by
    cases call
    case func => rfl
    all_goals cases total
  rw [factors_of_rows s k scale fun d member reads => (rows d member reads).1, callChange_eq _ _ _ total,
    same]
  by_cases draws : q.drawsOn s.name = true
  · simp [draws, Expr.isProduct]
  · simp [draws, unscaled]

/-- A call that sums an output of an aggregated derived table carries the one factor that is in it. -/
private theorem once_of_summed {q : Query} {totals : Totals} (distinct : q.NamesDistinct)
    (totalled : Totalled s.name q.directSubqueries totals) (unseen : q.readsRows s.name = false)
    (below : ∀ d ∈ q.directSubqueries, d.readsTable s.name = true → d.isAggregateLevel = true →
      d.drawsOn s.name = true ∧ d.SlotsAvoid s.name ∧ d.NamesDistinct
        ∧ ∀ call ∈ d.scaledExprs.flatMap Expr.aggregates, call.isTotal = true →
          d.factors s.name (d.restrictTo s k scale) call (d.callChange scale s.name call) = 1)
    {call : Expr} (total : call.isTotal = true) (summed : totals.isSummedBy call = true) :
    q.drawsOn s.name = true
      ∧ q.factors s.name (q.restrictTo s k scale) call (q.callChange scale s.name call) = 1 := by
  obtain ⟨name, asName, column, outputs, rfl, found, listed⟩ := exists_of_isSummedBy summed
  obtain ⟨d, member, reads, aggregates, named, rfl⟩ := totalled.scaled found
  obtain ⟨draws, avoid, outputsDistinct, once⟩ := below d member reads aggregates
  obtain ⟨output, selected, called, produced⟩ := exists_total_of_scaledOutputs listed
  have call := Expr.isAggregateCall_of_total produced
  have visited : output.expr ∈ d.scaledExprs.flatMap Expr.aggregates := by
    apply List.mem_flatMap.mpr
    refine ⟨output.expr, ?_, ?_⟩
    · simp only [scaledExprs, List.mem_append, List.mem_map]
      exact .inl (.inl ⟨output, selected, rfl⟩)
    · rw [Expr.aggregates_of_call call]
      exact List.mem_cons_self
  refine ⟨drawsOn_of_derived member draws, ?_⟩
  rw [factors_of_total s k scale distinct.derived member reads aggregates named
    outputsDistinct.outputs selected called call avoid, Expr.mapAggregates_of_call _ call,
    once _ visited produced, callChange_eq _ _ _ total, unseen]
  rfl

/-- In a query that can be scaled the scale comes into each total of an aggregating level once if
rows of the scramble come to the level, and not at all otherwise. -/
theorem once_of_accepted {q : Query} (accepted : ∀ level ∈ q.levels, level.levelUnscalable s.name = none)
    (distinct : ∀ level ∈ q.levels, level.NamesDistinct) (aggregates : q.isAggregateLevel = true) :
    ∀ call ∈ q.scaledExprs.flatMap Expr.aggregates, call.isTotal = true →
      q.factors s.name (q.restrictTo s k scale) call (q.callChange scale s.name call)
        = if q.drawsOn s.name then 1 else 0 := by
  have rule : LevelRule
      (fun q => (∀ level ∈ q.levels, level.levelUnscalable s.name = none)
        → (∀ level ∈ q.levels, level.NamesDistinct) → q.isAggregateLevel = true
        → ∀ call ∈ q.scaledExprs.flatMap Expr.aggregates, call.isTotal = true →
          q.factors s.name (q.restrictTo s k scale) call (q.callChange scale s.name call)
            = if q.drawsOn s.name then 1 else 0)
      (fun item => ∀ d ∈ item.directSubqueries,
        (∀ level ∈ d.levels, level.levelUnscalable s.name = none)
        → (∀ level ∈ d.levels, level.NamesDistinct) → d.isAggregateLevel = true
        → ∀ call ∈ d.scaledExprs.flatMap Expr.aggregates, call.isTotal = true →
          d.factors s.name (d.restrictTo s k scale) call (d.callChange scale s.name call)
            = if d.drawsOn s.name then 1 else 0) := by
    constructor
    case level =>
      intro q items _ accepted distinct aggregates call visited total
      have own := q.self_mem_levels
      obtain ⟨_, scalable⟩ := scalable_of_accepted (accepted q own)
      obtain ⟨totals, totalled, summed⟩ := scalable aggregates
      have avoid (level) (below : level ∈ q.levels) := (scalable_of_accepted (accepted level below)).1
      have draws (d) (member : d ∈ q.directSubqueries) (reads : d.readsTable s.name = true) :
          d.drawsOn s.name = true :=
        drawsOn_of_readsTable (fun level below =>
          avoid level (mem_levels_trans (mem_levels_of_derived member) below)) reads
      cases brings : totals.isEmpty with
      | true =>
        exact once_of_rows s k scale (fun d => totalled.rows_of_isEmpty brings) total
      | false =>
        obtain ⟨unseen, all⟩ := summed brings
        have below (d) (member : d ∈ q.directSubqueries) (reads : d.readsTable s.name = true)
            (aggregates' : d.isAggregateLevel = true) : d.drawsOn s.name = true
              ∧ d.SlotsAvoid s.name ∧ d.NamesDistinct
              ∧ ∀ call ∈ d.scaledExprs.flatMap Expr.aggregates, call.isTotal = true →
                d.factors s.name (d.restrictTo s k scale) call (d.callChange scale s.name call) = 1 := by
          have inLevels := mem_levels_of_derived member
          refine ⟨draws d member reads, avoid d inLevels, distinct d inLevels, ?_⟩
          intro call visited total
          obtain ⟨item, inList, inItem⟩ := List.mem_flatMap.mp member
          rw [items item inList d inItem
            (fun level below => accepted level (mem_levels_trans inLevels below))
            (fun level below => distinct level (mem_levels_trans inLevels below)) aggregates' call
            visited total, if_pos (draws d member reads)]
        obtain ⟨draws, one⟩ := once_of_summed s k scale (distinct q own) totalled unseen below total
          (List.all_eq_true.mp all call visited)
        rw [one, if_pos draws]
    case table => exact fun t d never => nomatch never
    case derived => exact fun q ih d own => List.mem_singleton.mp own ▸ ih
    case join =>
      intro left right kind on ihLeft ihRight _ d member
      rcases List.mem_append.mp member with inLeft | inRight
      · exact ihLeft d inLeft
      · exact ihRight d inRight
    case placeholder => exact fun ref d never => nomatch never
  exact rule.query q accepted distinct aggregates

end Factors

section Increments

variable (s : ScrambleMeta) (k : Nat) (scale : Float)

/-- Conditions of joins are left alone by a restriction. -/
private theorem joinConditions_restrictTo {q : Query} (avoid : q.SlotsAvoid s.name) :
    (q.restrictTo s k scale).joinConditions = q.joinConditions := by
  have ofItem (item : FromItem) (avoid : ∀ e ∈ item.joinConditions, ∀ slot ∈ e.slots,
      slot.2.readsTable s.name = false) :
      (item.mapLevels (restrictLevel s k scale)).joinConditions = item.joinConditions := by
    induction item using FromItem.treeInduction with
    | table t => rfl
    | subquery d => rfl
    | join left right kind on ihLeft ihRight =>
      rw [FromItem.joinConditions] at avoid
      simp only [List.mem_append] at avoid
      have own : on.map (Expr.mapSlots (mapLevels (restrictLevel s k scale))) = on := by
        cases on with
        | none => rfl
        | some e =>
          apply congrArg some
          apply Expr.mapSlots_eq_self
          intro slot inSlots
          exact restrictTo_eq_self s k scale (avoid e (.inr List.mem_cons_self) slot inSlots)
      rw [FromItem.mapLevels_join, FromItem.joinConditions, FromItem.joinConditions, own,
        ihLeft fun e among => avoid e (.inl (.inl among)),
        ihRight fun e among => avoid e (.inl (.inr among))]
    | placeholder ref => rfl
  rw [joinConditions, restrictTo_eq, fromList_restrictLevel, fromList_mapParts, List.flatMap_map]
  exact List.flatMap_congr fun item inList => ofItem item fun e among slot inSlots =>
    avoid.condition inList among inSlots

/-- Each level of a query that can be scaled is scaled once by a restriction. -/
theorem scaledOnce_restrictTo {q : Query} (accepted : ∀ level ∈ q.levels, level.levelUnscalable s.name = none)
    (distinct : ∀ level ∈ q.levels, level.NamesDistinct) :
    q.ScaledOnce s.name scale (q.restrictTo s k scale) := by
  obtain ⟨avoid, _⟩ := scalable_of_accepted (accepted q q.self_mem_levels)
  have calls := rewritten_restrictTo s k scale avoid
  constructor
  case calls => simp [calls, Function.comp_def]
  case kept =>
    intro pair member
    rw [calls, List.mem_map] at member
    obtain ⟨call, visited, rfl⟩ := member
    by_cases total : call.isTotal = true
    · rw [callChange_eq scale s.name q total]
      by_cases reads : q.readsRows s.name = true
      · exact .inr ⟨total, if_pos reads⟩
      · exact .inl (if_neg reads)
    · exact .inl (callChange_of_not_total scale s.name q (Bool.eq_false_iff.mpr total))
  case once =>
    intro aggregates pair member total
    rw [calls, List.mem_map] at member
    obtain ⟨call, visited, rfl⟩ := member
    exact once_of_accepted s k scale accepted distinct aggregates call visited total
  case groupBy => rw [restrictTo_of_avoid s k scale avoid]
  case conditions => exact joinConditions_restrictTo s k scale avoid
  case filter =>
    refine ⟨(q.directRefs s.name).map (blocksBelow s.blockColumn k), ?_, ?_⟩
    · intro e member
      obtain ⟨t, _, rfl⟩ := List.mem_map.mp member
      rfl
    · rw [restrictTo_of_avoid s k scale avoid, List.foldl_map]
      rfl

theorem scaleFactor_of_check {s : ScrambleMeta} {k : Nat} (checked : s.check = .ok ())
    (started : 0 < k) (within : k ≤ s.blockCount) : ∃ scale, s.scaleFactor k = some scale :=
  (ScrambleMeta.covered_of_check checked).scaleFactor started within

/-- Every total is scaled exactly once. Of a query that can be scaled over a scramble there is an
increment for each prefix of the blocks, in which the scale has come once into each SUM and COUNT over
rows of the scramble, and into nothing else. -/
theorem increment_scales_once {s : ScrambleMeta} {k : Nat} {q : Query} (started : 0 < k)
    (within : k < s.blockCount) (scalable : q.unscalable? s.name = none)
    (distinct : ∀ level ∈ q.levels, level.NamesDistinct) :
    (s.check = .ok () → ∃ r, q.increment s k = .ok r) ∧ ∀ r, q.increment s k = .ok r →
      ∃ scale, s.scaleFactor k = some scale
        ∧ List.Forall₂ (ScaledOnce s.name scale) q.levels r.levels := by
  have inRange : (k = 0 || s.blockCount < k) = false := by simp; omega
  have scaled {scale : Float} (factor : s.scaleFactor k = some scale) :
      q.increment s k = .ok (q.restrictTo s k scale) := by
    rw [increment, inRange, if_neg Bool.false_ne_true, if_neg (Nat.ne_of_lt within), factor]
  have unscaled (factor : s.scaleFactor k = none) :
      q.increment s k = .error (.noCoverage k s.name) := by
    rw [increment, inRange, if_neg Bool.false_ne_true, if_neg (Nat.ne_of_lt within), factor]
  constructor
  · intro checked
    obtain ⟨scale, factor⟩ := scaleFactor_of_check checked started within.le
    exact ⟨q.restrictTo s k scale, scaled factor⟩
  · intro r made
    cases factor : s.scaleFactor k with
    | none => cases (unscaled factor).symm.trans made
    | some scale =>
      cases (scaled factor).symm.trans made
      refine ⟨scale, rfl, ?_⟩
      have accepted := List.findSome?_eq_none_iff.mp scalable
      rw [levels_restrictTo, List.forall₂_map_right_iff]
      apply List.forall₂_same.mpr
      intro level inLevels
      exact scaledOnce_restrictTo s k scale
        (fun below inner => accepted below (mem_levels_trans inLevels inner))
        (fun below inner => distinct below (mem_levels_trans inLevels inner))

section Sample

/-- `(SELECT count(*) AS n FROM shop.orders) AS d`. -/
def countedOrders : Query :=
  ⟨[⟨.func "count" [.star none] false, some "n"⟩], [.table ⟨"shop", "orders", none⟩], none, [], none, [],
    none, some "d"⟩

/-- `SELECT sum(d.n) AS total FROM (SELECT count(*) AS n FROM shop.orders) AS d`. -/
def sumOfCounts : Query :=
  ⟨[⟨.func "sum" [.column (some "d") "n"] false, some "total"⟩], [.subquery countedOrders], none, [],
    none, [], none, none⟩

/-- The orders in two blocks of equal size. -/
def ordersInHalves : ScrambleMeta := ⟨"shop", "orders", "block", 2, [0.5, 1.0]⟩

theorem sumOfCounts_scaled_once : sumOfCounts.unscalable? ordersInHalves.name = none
    ∧ ∃ r scale, sumOfCounts.increment ordersInHalves 1 = .ok r
      ∧ List.Forall₂ (ScaledOnce ordersInHalves.name scale) sumOfCounts.levels r.levels := by
  have scalable : sumOfCounts.unscalable? ordersInHalves.name = none := rfl
  have levels : sumOfCounts.levels = [sumOfCounts, countedOrders] := rfl
  have distinct : ∀ level ∈ sumOfCounts.levels, level.NamesDistinct := by
    simp only [levels, List.forall_mem_cons]
    exact ⟨⟨List.nodup_singleton _, List.nodup_singleton _⟩, ⟨List.nodup_nil, List.nodup_singleton _⟩,
      fun _ never => nomatch never⟩
  obtain ⟨scale, _, once⟩ := (increment_scales_once (k := 1) Nat.one_pos Nat.one_lt_two scalable distinct).2
    _ rfl
  exact ⟨scalable, _, scale, rfl, once⟩

end Sample

end Increments

end Query

end ApproxQuery
