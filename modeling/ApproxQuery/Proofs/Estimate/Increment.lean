import ApproxQuery.Estimate.Increment
import ApproxQuery.Proofs.Query.Placeholders
import ApproxQuery.Proofs.Query.Scope
import ApproxQuery.Proofs.Scramble.Catalog

/-! An increment reads the placeholders of its query and no others, and has the same free names. -/
namespace ApproxQuery

namespace Expr

/-- Changes every aggregate call of an expression. -/
def mapAggregates (change : Expr → Expr) (e : Expr) : Expr :=
  Id.run (e.replaceAggregates fun call => pure (change call))

variable (change : Expr → Expr)

theorem mapAggregates_func (name : String) (args : List Expr) (distinct : Bool) :
    (func name args distinct).mapAggregates change
      = if isAggregateFunction name then change (func name args distinct)
        else func name (args.map (mapAggregates change)) distinct := by
  have inArgs := replaceAggregatesIn_eq (m := Id) (fun call => pure (change call)) args
  rw [mapAggregates, replaceAggregates]
  split
  · rfl
  · exact congrArg (func name · distinct) (inArgs.trans (List.mapM_pure (f := mapAggregates change)))

theorem mapAggregates_id (e : Expr) : (e.mapAggregates fun call => call) = e := by
  refine ExprRule.expr (E := fun e => (e.mapAggregates fun call => call) = e) ?_ e
  constructor
  case func =>
    intro name args distinct ih
    rw [mapAggregates_func, (List.map_congr_left ih).trans args.map_id', ite_self]
  case binary => exact fun op left right ihLeft ihRight => congrArg₂ (binary op) ihLeft ihRight
  case not => exact fun operand ih => congrArg Expr.not ih
  case isNull => exact fun operand negated ih => congrArg (isNull · negated) ih
  case inSubquery => exact fun operand query negated ih => congrArg (inSubquery · query negated) ih
  all_goals intros; rfl

end Expr

section Scaling

variable (scale : Float)

theorem scaleAggregates_eq (e : Expr) :
    scaleAggregates scale e = e.mapAggregates (scaleCall scale) := rfl

/-- Scaling leaves the sub-queries alone. -/
theorem slots_scaleAggregates (e : Expr) : (scaleAggregates scale e).slots = e.slots := by
  refine ExprRule.expr (E := fun e => (scaleAggregates scale e).slots = e.slots) ?_ e
  constructor
  case func =>
    intro name args distinct ih
    rw [scaleAggregates_eq, Expr.mapAggregates_func]
    split
    · rw [scaleCall]
      split
      · exact List.append_nil _
      · rfl
    · rw [Expr.slots, Expr.slots, Expr.slotsIn_eq, Expr.slotsIn_eq, List.flatMap_map]
      exact List.flatMap_congr ih
  case binary =>
    intro op left right ihLeft ihRight
    exact congrArg₂ (· ++ ·) ihLeft ihRight
  case not => exact fun operand ih => ih
  case isNull => exact fun operand negated ih => ih
  case inSubquery => exact fun operand query negated ih => congrArg (· ++ [_]) ih
  all_goals intros; rfl

/-- Scaling leaves the names. -/
theorem freeRefs_scaleAggregates (e : Expr) : (scaleAggregates scale e).freeRefs = e.freeRefs := by
  refine ExprRule.expr (E := fun e => (scaleAggregates scale e).freeRefs = e.freeRefs) ?_ e
  constructor
  case func =>
    intro name args distinct ih
    rw [scaleAggregates_eq, Expr.mapAggregates_func]
    split
    · rw [scaleCall]
      split
      · exact List.append_nil _
      · rfl
    · rw [Expr.freeRefs, Expr.freeRefs, Expr.freeRefsIn_eq, Expr.freeRefsIn_eq, List.flatMap_map]
      exact List.flatMap_congr ih
  case binary =>
    intro op left right ihLeft ihRight
    exact congrArg₂ (· ++ ·) ihLeft ihRight
  case not => exact fun operand ih => ih
  case isNull => exact fun operand negated ih => ih
  case inSubquery =>
    intro operand query negated ih
    exact congrArg (· ++ query.freeRefs) ih
  all_goals intros; rfl

end Scaling

namespace Query

variable {ref : PlaceholderRef}

private theorem mem_placeholders_of_slots {q q' : Query} (items : q'.fromList = q.fromList)
    (slots : q'.exprs.flatMap Expr.slots = q.exprs.flatMap Expr.slots) :
    ref ∈ q'.placeholders ↔ ref ∈ q.placeholders := by
  have inSlots (q : Query) : (∃ e ∈ q.exprs, ∃ slot ∈ e.slots, ref ∈ slot.2.placeholders)
      ↔ ∃ slot ∈ q.exprs.flatMap Expr.slots, ref ∈ slot.2.placeholders := by
    simp only [List.mem_flatMap]
    tauto
  rw [mem_placeholders, mem_placeholders, inSlots, inSlots, items, slots]

private theorem slots_scaled (scale : Float) (q : Query) :
    (q.scaled scale).exprs.flatMap Expr.slots = q.exprs.flatMap Expr.slots := by
  cases having : q.having with
  | none =>
    simp [scaled, exprs, having, List.flatMap_map, slots_scaleAggregates, Function.comp_def]
  | some e =>
    simp [scaled, exprs, having, List.flatMap_map, slots_scaleAggregates, Function.comp_def]

/-- Bounds the block numbers of every reference that a level has to the scramble. -/
def boundBlocks (s : ScrambleMeta) (k : Nat) (before level : Query) : Query :=
  (before.directRefs s.name).foldl
    (fun level t => level.addFilter (blocksBelow s.blockColumn k t)) level

/-- A bound on block numbers adds to the filter alone. -/
theorem boundBlocks_eq (s : ScrambleMeta) (k : Nat) (before level : Query) :
    boundBlocks s k before level
      = { level with filter := (boundBlocks s k before level).filter } := by
  unfold boundBlocks
  induction before.directRefs s.name generalizing level with
  | nil => cases level; rfl
  | cons t rest ih =>
    rw [List.foldl_cons, ih]
    rfl

/-- What a restriction to a block prefix makes of one level. -/
def restrictLevel (s : ScrambleMeta) (k : Nat) (scale : Float) (before level : Query) : Query :=
  if before.readsRows s.name then (boundBlocks s k before level).scaled scale
  else boundBlocks s k before level

theorem restrictTo_eq (s : ScrambleMeta) (k : Nat) (scale : Float) (q : Query) :
    q.restrictTo s k scale = restrictLevel s k scale q
      (q.mapParts (FromItem.mapLevels (restrictLevel s k scale))
        (Expr.mapSlots fun slot => slot.restrictTo s k scale)) :=
  mapLevels_eq (restrictLevel s k scale) q

section Level

variable (s : ScrambleMeta) (k : Nat) (scale : Float) (before level : Query)

/-- Neither a bound nor a factor is seen by what looks at other parts of a level. -/
theorem restrictLevel_keeps {β : Type} (part : Query → β)
    (filters : ∀ (q : Query) clause, part { q with filter := clause } = part q)
    (scales : ∀ q : Query, part (q.scaled scale) = part q) :
    part (restrictLevel s k scale before level) = part level := by
  have bounded : part (boundBlocks s k before level) = part level := by
    rw [boundBlocks_eq]
    exact filters level _
  unfold restrictLevel
  split
  · exact (scales _).trans bounded
  · exact bounded

theorem fromList_restrictLevel : (restrictLevel s k scale before level).fromList = level.fromList :=
  restrictLevel_keeps s k scale before level Query.fromList (fun _ _ => rfl) fun _ => rfl

theorem asName_restrictLevel : (restrictLevel s k scale before level).asName = level.asName :=
  restrictLevel_keeps s k scale before level Query.asName (fun _ _ => rfl) fun _ => rfl

/-- The bounds and the scale hold no sub-query. -/
theorem slots_restrictLevel : (restrictLevel s k scale before level).exprs.flatMap Expr.slots
    = level.exprs.flatMap Expr.slots := by
  have bounded : (boundBlocks s k before level).exprs.flatMap Expr.slots
      = level.exprs.flatMap Expr.slots := by
    unfold boundBlocks
    induction before.directRefs s.name generalizing level with
    | nil => rfl
    | cons t rest ih => exact (ih _).trans (slots_addFilter rfl level)
  unfold restrictLevel
  split
  · exact (slots_scaled scale _).trans bounded
  · exact bounded

end Level

section Scope

variable {name : String}

private theorem mem_freeRefs_addFilter {predicate : Expr} {q : Query}
    (bound : name ∈ predicate.freeRefs → name ∈ q.boundNames) :
    name ∈ (q.addFilter predicate).freeRefs ↔ name ∈ q.freeRefs := by
  have same : (q.addFilter predicate).boundNames = q.boundNames := rfl
  rw [mem_freeRefs, mem_freeRefs, same]
  refine and_congr_left fun unbound => or_congr_left ?_
  have foreign : name ∉ predicate.freeRefs := fun inside => unbound (bound inside)
  cases filter : q.filter with
  | none => simp [addFilter, exprs, filter, or_and_right, exists_or, foreign]
  | some e => simp [addFilter, exprs, filter, or_and_right, exists_or, foreign, Expr.and, Expr.freeRefs]

private theorem freeRefs_scaled (scale : Float) (q : Query) : (q.scaled scale).freeRefs = q.freeRefs := by
  have same : (q.scaled scale).exprs.flatMap Expr.freeRefs = q.exprs.flatMap Expr.freeRefs := by
    cases having : q.having with
    | none =>
      simp [scaled, exprs, having, List.flatMap_map, freeRefs_scaleAggregates, Function.comp_def]
    | some e =>
      simp [scaled, exprs, having, List.flatMap_map, freeRefs_scaleAggregates, Function.comp_def]
  rw [freeRefs_eq, freeRefs_eq, same]
  rfl

/-- The block bounds of a level name references of that level. -/
theorem mem_freeRefs_restrictLevel (s : ScrambleMeta) (k : Nat) (scale : Float) {before level : Query}
    (bound : ∀ t ∈ before.directRefs s.name, t.referenceName ∈ level.boundNames) :
    name ∈ (restrictLevel s k scale before level).freeRefs ↔ name ∈ level.freeRefs := by
  have bounded : name ∈ (boundBlocks s k before level).freeRefs ↔ name ∈ level.freeRefs := by
    unfold boundBlocks
    generalize before.directRefs s.name = refs at bound
    induction refs generalizing level with
    | nil => exact Iff.rfl
    | cons t rest ih =>
      obtain ⟨own, later⟩ := List.forall_mem_cons.mp bound
      have added := @ih (level.addFilter (blocksBelow s.blockColumn k t)) later
      refine added.trans (mem_freeRefs_addFilter fun inside => ?_)
      rwa [List.mem_singleton.mp inside]
  unfold restrictLevel
  split
  · rw [freeRefs_scaled]
    exact bounded
  · exact bounded

/-- A restriction to a block prefix has the same free names. -/
theorem mem_freeRefs_restrictTo (s : ScrambleMeta) (k : Nat) (scale : Float) (q : Query) :
    name ∈ (q.restrictTo s k scale).freeRefs ↔ name ∈ q.freeRefs := by
  have sameNames (item : FromItem) :
      (item.mapLevels (restrictLevel s k scale)).boundNames = item.boundNames := by
    induction item using FromItem.treeInduction with
    | table t => rfl
    | subquery q =>
      have same : (q.restrictTo s k scale).asName = q.asName := by
        rw [restrictTo_eq, asName_restrictLevel, asName_mapParts]
      exact congrArg Option.toList same
    | join left right kind on ihLeft ihRight =>
      rw [FromItem.mapLevels_join, FromItem.boundNames, FromItem.boundNames, ihLeft, ihRight]
    | placeholder ref => rfl
  have rule : LevelRule (fun q => name ∈ (q.restrictTo s k scale).freeRefs ↔ name ∈ q.freeRefs)
      fun item => name ∈ (item.mapLevels (restrictLevel s k scale)).freeRefs ↔ name ∈ item.freeRefs := by
    constructor
    case level =>
      intro q items slots
      rw [restrictTo_eq, mem_freeRefs_restrictLevel]
      · exact mem_freeRefs_mapParts (fun item _ => sameNames item) items slots
      · intro t member
        rw [boundNames_mapParts fun item _ => sameNames item]
        exact referenceName_mem_boundNames (List.mem_filter.mp member).1
    case table => exact fun t => Iff.rfl
    case derived => exact fun q ih => ih
    case join =>
      intro left right kind on ihLeft ihRight slots
      rw [FromItem.mapLevels_join]
      exact FromItem.mem_freeRefs_join_map ihLeft ihRight slots
    case placeholder => exact fun ref => Iff.rfl
  exact rule.query q

end Scope

/-- A restriction to a block prefix reads the same placeholders. -/
theorem mem_placeholders_restrictTo (s : ScrambleMeta) (k : Nat) (scale : Float) (q : Query) :
    ref ∈ (q.restrictTo s k scale).placeholders ↔ ref ∈ q.placeholders := by
  have rule : LevelRule
      (fun q => ref ∈ (q.restrictTo s k scale).placeholders ↔ ref ∈ q.placeholders)
      (fun item => ref ∈ (item.mapLevels (restrictLevel s k scale)).placeholders
        ↔ ref ∈ item.placeholders) := by
    constructor
    case level =>
      intro q items slots
      rw [restrictTo_eq]
      apply (mem_placeholders_of_slots (fromList_restrictLevel s k scale q _)
        (slots_restrictLevel s k scale q _)).trans
      rw [mem_placeholders, mem_placeholders, fromList_mapParts, exprs_mapParts]
      simp only [List.mem_map, exists_exists_and_eq_and, Expr.slots_mapSlots]
      refine or_congr (exists_congr fun item => and_congr_right (items item)) ?_
      exact exists_congr fun e => and_congr_right fun member =>
        exists_congr fun slot => and_congr_right (slots e member slot)
    case table => exact fun t => Iff.rfl
    case derived => exact fun q ih => ih
    case join =>
      intro left right kind on ihLeft ihRight slots
      rw [FromItem.mapLevels_join, FromItem.mem_placeholders_join, FromItem.mem_placeholders_join,
        ihLeft, ihRight]
      simp only [Option.map_eq_some_iff, exists_exists_and_eq_and, Expr.slots_mapSlots, List.mem_map]
      refine or_congr Iff.rfl (or_congr Iff.rfl ?_)
      exact exists_congr fun e => and_congr_right fun same =>
        exists_congr fun slot => and_congr_right (slots e same slot)
    case placeholder => exact fun ref => Iff.rfl
  exact rule.query q

/-- An increment is the query itself or a restriction of it. -/
theorem increment_cases {s : ScrambleMeta} {k : Nat} {q r : Query} (made : q.increment s k = .ok r) :
    r = q ∨ ∃ scale, r = q.restrictTo s k scale := by
  unfold increment at made
  split at made
  · cases made
  · split at made
    · exact .inl (Except.ok.inj made).symm
    · cases factor : s.scaleFactor k with
      | none => simp [factor] at made
      | some scale =>
        simp only [factor, Except.ok.injEq] at made
        exact .inr ⟨scale, made.symm⟩

/-- The last increment is the query itself. -/
theorem increment_blockCount {s : ScrambleMeta} (covered : s.Covered) (q : Query) :
    q.increment s s.blockCount = .ok q := by
  unfold increment
  simp [Nat.ne_of_gt covered.1]

/-- Over a covered scramble there is an increment for every prefix of the blocks. -/
theorem increment_ok {s : ScrambleMeta} {k : Nat} (covered : s.Covered) (started : 0 < k)
    (within : k ≤ s.blockCount) (q : Query) : ∃ r, q.increment s k = .ok r := by
  obtain ⟨scale, factor⟩ := covered.scaleFactor started within
  by_cases last : k = s.blockCount
  · exact ⟨q, last ▸ increment_blockCount covered q⟩
  · refine ⟨q.restrictTo s k scale, ?_⟩
    unfold increment
    simp [Nat.ne_of_gt started, Nat.not_lt.mpr within, last, factor]

/-- An increment reads the placeholders that its query reads. -/
theorem mem_placeholders_increment {s : ScrambleMeta} {k : Nat} {q r : Query}
    (made : q.increment s k = .ok r) : ref ∈ r.placeholders ↔ ref ∈ q.placeholders := by
  rcases increment_cases made with rfl | ⟨scale, rfl⟩
  · exact Iff.rfl
  · exact mem_placeholders_restrictTo s k scale q

/-- An increment has the free names of its query. -/
theorem mem_freeRefs_increment {s : ScrambleMeta} {k : Nat} {q r : Query} {name : String}
    (made : q.increment s k = .ok r) : name ∈ r.freeRefs ↔ name ∈ q.freeRefs := by
  rcases increment_cases made with rfl | ⟨scale, rfl⟩
  · exact Iff.rfl
  · exact mem_freeRefs_restrictTo s k scale q

end Query

end ApproxQuery
