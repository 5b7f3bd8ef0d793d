import ApproxQuery.Proofs.Query.Filling
import Mathlib.Algebra.BigOperators.Group.List.Lemmas
import Mathlib.Algebra.BigOperators.Ring.List
import Mathlib.Algebra.Ring.Nat
import Mathlib.Data.List.Count
import Mathlib.Tactic.Tauto

/-! Filling balances placeholders: what is filled goes, and the content's own placeholders come
once for each place that is filled. -/
namespace ApproxQuery

/-- A sum of ones counts. -/
theorem sum_indicator {α : Type} (P : α → Bool) (items : List α) :
    (items.map fun item => if P item then 1 else 0).sum = items.countP P := by
  induction items with
  | nil => rfl
  | cons item rest ih =>
    rw [List.map_cons, List.sum_cons, ih, List.countP_cons, Nat.add_comm]

/-- A quantity of levels, summed over a query and all queries nested in it. -/
def Query.total (weight : Query → Nat) (q : Query) : Nat := (q.levels.map weight).sum

/-- The same sum over the levels below an item. -/
def FromItem.total (weight : Query → Nat) (item : FromItem) : Nat := (item.levels.map weight).sum

/-- The same sum over the levels below an expression. -/
def Expr.total (weight : Query → Nat) (e : Expr) : Nat :=
  (e.slots.map fun slot => slot.2.total weight).sum

theorem Query.total_eq (weight : Query → Nat) (q : Query) :
    q.total weight = weight q + (q.fromList.map (FromItem.total weight)).sum
      + (q.exprs.map (Expr.total weight)).sum := by
  have below (e : Expr) : (e.levels.map weight).sum = e.total weight := by
    rw [Expr.levels_eq, sum_map_flatMap]
    rfl
  rw [total, levels_eq, List.map_cons, List.sum_cons, List.map_append, List.sum_append,
    sum_map_flatMap, sum_map_flatMap, Nat.add_assoc]
  simp only [below]
  rfl

namespace FromItem

variable (weight : Query → Nat)

@[simp] theorem total_table (t : BaseTable) : (FromItem.table t).total weight = 0 := rfl

@[simp] theorem total_placeholder (ref : PlaceholderRef) :
    (FromItem.placeholder ref).total weight = 0 := rfl

@[simp] theorem total_subquery (q : Query) :
    (FromItem.subquery q).total weight = q.total weight := rfl

@[simp] theorem total_join (left right : FromItem) (kind : JoinKind) (on : Option Expr) :
    (FromItem.join left right kind on).total weight
      = left.total weight + right.total weight + (on.toList.map (Expr.total weight)).sum := by
  cases on with
  | none => simp [total, levels]
  | some e =>
    have below : (e.levels.map weight).sum = e.total weight := by
      rw [Expr.levels_eq, sum_map_flatMap]
      rfl
    simp [total, levels, below, Nat.add_assoc]

end FromItem

/-- What the placeholders of a level's own from-list weigh. -/
def Query.directWeight (f : PlaceholderRef → Nat) (q : Query) : Nat :=
  (q.directPlaceholders.map f).sum

theorem Query.sum_placeholders (f : PlaceholderRef → Nat) (q : Query) :
    (q.placeholders.map f).sum = q.total (directWeight f) :=
  sum_map_flatMap directPlaceholders f q.levels

/-- Placeholders of an item's join tree, and of all levels below it. -/
def FromItem.placeholders (item : FromItem) : List PlaceholderRef :=
  item.directPlaceholders ++ item.levels.flatMap Query.directPlaceholders

/-- Placeholders of the queries in an expression's slots. -/
def Expr.placeholders (e : Expr) : List PlaceholderRef :=
  e.slots.flatMap fun slot => slot.2.placeholders

namespace Expr

theorem placeholders_func (name : String) (args : List Expr) (distinct : Bool) :
    (func name args distinct).placeholders = args.flatMap placeholders := by
  unfold placeholders
  rw [slots, slotsIn_eq, List.flatMap_assoc]

theorem placeholders_binary (op : BinaryOp) (left right : Expr) :
    (binary op left right).placeholders = left.placeholders ++ right.placeholders :=
  List.flatMap_append

theorem placeholders_subquery (query : Query) :
    (subquery query).placeholders = query.placeholders :=
  List.flatMap_singleton _ _

theorem placeholders_inSubquery (operand : Expr) (query : Query) (negated : Bool) :
    (inSubquery operand query negated).placeholders
      = operand.placeholders ++ query.placeholders := by
  unfold placeholders
  rw [slots, List.flatMap_append, List.flatMap_singleton]

theorem placeholders_existsSubquery (query : Query) (negated : Bool) :
    (existsSubquery query negated).placeholders = query.placeholders :=
  List.flatMap_singleton _ _

end Expr

private theorem flatMap_levels (e : Expr) :
    e.levels.flatMap Query.directPlaceholders = e.placeholders := by
  rw [Expr.levels_eq, List.flatMap_assoc]
  rfl

/-- A query reads what its from-list and its slots read. -/
theorem Query.placeholders_perm (q : Query) :
    q.placeholders.Perm
      (q.fromList.flatMap FromItem.placeholders ++ q.exprs.flatMap Expr.placeholders) := by
  rw [placeholders, levels_eq, List.flatMap_cons, List.flatMap_append, List.flatMap_assoc,
    List.flatMap_assoc, ← List.append_assoc]
  simp only [flatMap_levels]
  exact (List.flatMap_append_perm _ _ _).append_right _

theorem Query.placeholders_rename (q : Query) (asName : Option String) :
    ({ q with asName } : Query).placeholders = q.placeholders := by
  rw [placeholders, placeholders, levels_eq, levels_eq]
  rfl

theorem Query.mem_placeholders {q : Query} {ref : PlaceholderRef} :
    ref ∈ q.placeholders ↔ (∃ item ∈ q.fromList, ref ∈ item.placeholders)
      ∨ ∃ e ∈ q.exprs, ∃ slot ∈ e.slots, ref ∈ slot.2.placeholders := by
  simp only [q.placeholders_perm.mem_iff, List.mem_append, List.mem_flatMap, Expr.placeholders]

namespace FromItem

@[simp] theorem placeholders_table (t : BaseTable) : (FromItem.table t).placeholders = [] := rfl

@[simp] theorem placeholders_placeholder (ref : PlaceholderRef) :
    (FromItem.placeholder ref).placeholders = [ref] := rfl

@[simp] theorem placeholders_subquery (q : Query) :
    (FromItem.subquery q).placeholders = q.placeholders := rfl

theorem placeholders_join_perm (left right : FromItem) (kind : JoinKind) (on : Option Expr) :
    (FromItem.join left right kind on).placeholders.Perm
      (left.placeholders ++ right.placeholders ++ on.toList.flatMap Expr.placeholders) := by
  have sides : (left.directPlaceholders ++ right.directPlaceholders
      ++ (left.levels ++ right.levels).flatMap Query.directPlaceholders).Perm
        (left.placeholders ++ right.placeholders) := by
    simp only [placeholders, List.flatMap_append, List.append_assoc]
    refine List.Perm.append_left _ ?_
    simp only [← List.append_assoc]
    exact List.perm_append_comm.append_right _
  cases on with
  | none =>
    rw [placeholders, directPlaceholders, levels, List.append_nil]
    exact sides.trans (List.append_nil _ ▸ List.Perm.refl _)
  | some e =>
    rw [placeholders, directPlaceholders, levels, List.flatMap_append, ← List.append_assoc,
      flatMap_levels]
    exact sides.append (List.append_nil e.placeholders ▸ List.Perm.refl _)

theorem mem_placeholders_join {left right : FromItem} {kind : JoinKind} {on : Option Expr}
    {ref : PlaceholderRef} :
    ref ∈ (FromItem.join left right kind on).placeholders
      ↔ ref ∈ left.placeholders ∨ ref ∈ right.placeholders
        ∨ ∃ e, on = some e ∧ ∃ slot ∈ e.slots, ref ∈ slot.2.placeholders := by
  simp only [(placeholders_join_perm left right kind on).mem_iff, List.mem_append, or_assoc,
    List.mem_flatMap, Option.mem_toList, Expr.placeholders]

end FromItem

namespace Query

variable (node : NodeId)

/-- The placeholders that `fillTables` fills. -/
def tableRefs (q : Query) : List PlaceholderRef :=
  q.levels.flatMap fun level =>
    if level.marker? = some node then []
    else level.directPlaceholders.filter fun ref => ref.node = node

/-- The placeholders of the markers that `fillMarkers` fills. -/
def markerRefs (q : Query) : List PlaceholderRef :=
  q.levels.flatMap fun level =>
    ((level.exprs.flatMap Expr.slots).filter fun slot => slot.2.marker? = some node).flatMap
      fun slot => slot.2.directPlaceholders

theorem tableSites_eq (q : Query) : q.tableSites node = (q.tableRefs node).length := rfl

private theorem length_flatMap_markers (slots : List (SubqueryKind × Query)) :
    ((slots.filter fun slot => slot.2.marker? = some node).flatMap
      fun slot => slot.2.directPlaceholders).length
      = (slots.filter fun slot => slot.2.marker? = some node).length := by
  rw [List.length_flatMap, List.map_congr_left (g := fun _ => 1), List.map_const',
    List.sum_replicate_nat, Nat.mul_one]
  · intro slot member
    obtain ⟨ref, asName, _, same⟩ := marker?_eq_some.mp (of_decide_eq_true (List.mem_filter.mp member).2)
    rw [same]
    rfl

theorem markerSites_eq (q : Query) : q.markerSites node = (q.markerRefs node).length := by
  unfold markerSites markerRefs
  rw [List.length_flatMap, List.length_flatMap]
  simp only [length_flatMap_markers]

end Query

section Balance

variable (node : NodeId) (content : Query) (f : PlaceholderRef → Nat)

private theorem sum_balance {α : Type} {l : List α} {a b c d : α → Nat}
    (each : ∀ x ∈ l, a x + b x = c x + d x) :
    (l.map a).sum + (l.map b).sum = (l.map c).sum + (l.map d).sum := by
  induction l with
  | nil => rfl
  | cons x rest ih =>
    have first := each x List.mem_cons_self
    have later := ih fun y member => each y (List.mem_cons_of_mem x member)
    simp only [List.map_cons, List.sum_cons]
    omega

private theorem exprs_balance (change : Query → Query) {a b c d : Query → Nat} {es : List Expr}
    (each : ∀ e ∈ es, ∀ slot ∈ e.slots,
      (change slot.2).total a + slot.2.total b = slot.2.total c + slot.2.total d) :
    ((es.map (Expr.mapSlots change)).map (Expr.total a)).sum + (es.map (Expr.total b)).sum
      = (es.map (Expr.total c)).sum + (es.map (Expr.total d)).sum := by
  rw [List.map_map]
  refine sum_balance fun e member => ?_
  simp only [Function.comp_apply, Expr.total, Expr.slots_mapSlots, List.map_map]
  exact sum_balance (each e member)

/-- The weight of a level's own placeholders that are filled as tables. -/
private def tableGone (level : Query) : Nat :=
  if level.marker? = some node then 0
  else ((level.directPlaceholders.filter fun ref => ref.node = node).map f).sum

/-- The weight of what comes in their place. -/
private def tableCome (level : Query) : Nat :=
  if level.marker? = some node then 0
  else (level.directPlaceholders.filter fun ref => ref.node = node).length
    * content.total (Query.directWeight f)

private theorem total_of_marker {weight : Query → Nat} {q : Query}
    (marker : q.marker? = some node) : q.total weight = weight q := by
  obtain ⟨ref, asName, _, rfl⟩ := Query.marker?_eq_some.mp marker
  rw [Query.total_eq]
  rfl

private theorem total_asName (asName : Option String) :
    Query.total (Query.directWeight f) { content with asName }
      = content.total (Query.directWeight f) := by
  rw [Query.total_eq, Query.total_eq]
  rfl

/-- The weight of an item's own placeholders and of those below it. -/
private def FromItem.weigh (item : FromItem) : Nat :=
  (item.directPlaceholders.map f).sum + item.total (Query.directWeight f)

private theorem directWeight_eq (q : Query) :
    q.directWeight f = (q.fromList.map fun item => (item.directPlaceholders.map f).sum).sum :=
  sum_map_flatMap _ f q.fromList

private theorem Query.total_weigh (q : Query) :
    q.total (Query.directWeight f) = (q.fromList.map (FromItem.weigh f)).sum
      + (q.exprs.map (Expr.total (Query.directWeight f))).sum := by
  rw [Query.total_eq, directWeight_eq, ← List.sum_map_add]
  rfl

private theorem tables_balance :
    LevelRule
      (fun q => (q.fillTables node content).total (Query.directWeight f) + q.total (tableGone node f)
        = q.total (Query.directWeight f) + q.total (tableCome node content f))
      (fun item => (item.fillTables node content).weigh f
          + (((item.directPlaceholders.filter fun ref => ref.node = node).map f).sum
            + item.total (tableGone node f))
        = item.weigh f + ((item.directPlaceholders.filter fun ref => ref.node = node).length
            * content.total (Query.directWeight f) + item.total (tableCome node content f))) where
  level := by
    intro q items slots
    by_cases marker : q.marker? = some node
    · rw [Query.fillTables_of_marker node content marker, total_of_marker node marker,
        total_of_marker node marker, total_of_marker node marker, tableGone, tableCome,
        if_pos marker, if_pos marker]
    · have inItems := sum_balance items
      have inExprs := exprs_balance (fun slot => slot.fillTables node content) slots
      have gone : tableGone node f q = (q.fromList.map fun item =>
          ((item.directPlaceholders.filter fun ref => ref.node = node).map f).sum).sum := by
        rw [tableGone, if_neg marker, Query.directPlaceholders, List.filter_flatMap, sum_map_flatMap]
      have come : tableCome node content f q = (q.fromList.map fun item =>
          (item.directPlaceholders.filter fun ref => ref.node = node).length
            * content.total (Query.directWeight f)).sum := by
        rw [tableCome, if_neg marker, Query.directPlaceholders, List.filter_flatMap,
          List.length_flatMap, List.sum_map_mul_right (R := Nat)]
      rw [Query.fillTables_of_not_marker node content marker, Query.total_weigh,
        Query.total_weigh, Query.total_eq (tableGone node f), Query.total_eq (tableCome node content f),
        gone, come, Query.exprs_mapParts, Query.fromList_mapParts, List.map_map]
      simp only [List.sum_map_add] at inItems
      simp only [Function.comp_def]
      omega
  table := by
    intro t
    simp [FromItem.weigh, FromItem.directPlaceholders]
  derived := by
    intro q ih
    simpa [FromItem.weigh, FromItem.directPlaceholders] using ih
  join := by
    intro left right kind on ihLeft ihRight slots
    have inOn := exprs_balance (fun slot => slot.fillTables node content)
      fun e member => slots e (Option.mem_toList.mp member)
    simp only [FromItem.weigh, FromItem.fillTables_join, FromItem.directPlaceholders,
      FromItem.total_join, List.filter_append, List.map_append, List.sum_append, List.length_append,
      Nat.add_mul] at ihLeft ihRight ⊢
    rw [Option.toList_map]
    omega
  placeholder := by
    intro ref
    rw [FromItem.fillTables_placeholder]
    by_cases same : ref.node = node
    · simp [same, FromItem.weigh, FromItem.directPlaceholders, total_asName, Nat.add_comm]
    · simp [same, FromItem.weigh, FromItem.directPlaceholders]

/-- What a slot becomes when markers are filled. -/
private def fillSlot (slot : Query) : Query :=
  if slot.marker? = some node then { content with asName := none }
  else slot.fillMarkers node content

/-- The weight of the markers in a level's own slots. -/
private def markerGone (level : Query) : Nat :=
  ((level.exprs.flatMap Expr.slots).map fun slot =>
    if slot.2.marker? = some node then slot.2.directWeight f else 0).sum

/-- The weight of what comes in their place. -/
private def markerCome (level : Query) : Nat :=
  ((level.exprs.flatMap Expr.slots).map fun slot =>
    if slot.2.marker? = some node then content.total (Query.directWeight f) else 0).sum

private theorem markerGone_of_marker {q : Query} (marker : q.marker? = some node) :
    markerGone node f q = 0 := by
  obtain ⟨ref, asName, _, rfl⟩ := Query.marker?_eq_some.mp marker
  rfl

private theorem markerCome_of_marker {q : Query} (marker : q.marker? = some node) :
    markerCome node content f q = 0 := by
  obtain ⟨ref, asName, _, rfl⟩ := Query.marker?_eq_some.mp marker
  rfl

private theorem markers_balance :
    LevelRule
      (fun q => (q.fillMarkers node content).total (Query.directWeight f) + q.total (markerGone node f)
        = q.total (Query.directWeight f) + q.total (markerCome node content f))
      (fun item => (item.fillMarkers node content).total (Query.directWeight f)
          + item.total (markerGone node f)
        = item.total (Query.directWeight f) + item.total (markerCome node content f)) where
  level := by
    intro q items slots
    have inItems := sum_balance items
    -- A slot that holds a marker is replaced as a whole, any other is filled below.
    have inSlots (e) (member : e ∈ q.exprs) := sum_balance (l := e.slots)
      (a := fun slot => (fillSlot node content slot.2).total (Query.directWeight f))
      (b := fun slot => (if slot.2.marker? = some node then slot.2.directWeight f else 0)
        + slot.2.total (markerGone node f))
      (c := fun slot => slot.2.total (Query.directWeight f))
      (d := fun slot => (if slot.2.marker? = some node then content.total (Query.directWeight f) else 0)
        + slot.2.total (markerCome node content f))
      fun slot inSlots => by
        have below := slots e member slot inSlots
        simp only [fillSlot]
        split
        · rename_i marker
          rw [total_asName, total_of_marker node marker, total_of_marker node marker,
            total_of_marker node marker, markerGone_of_marker node f marker,
            markerCome_of_marker node content f marker]
          omega
        · omega
    have inExprs := sum_balance inSlots
    simp only [List.sum_map_add] at inExprs
    have gone : markerGone node f q = _ := sum_map_flatMap _ _ q.exprs
    have come : markerCome node content f q = _ := sum_map_flatMap _ _ q.exprs
    have filled : ((q.exprs.map (Expr.mapSlots (fillSlot node content))).map
        (Expr.total (Query.directWeight f))).sum = (q.exprs.map fun e => (e.slots.map fun slot =>
          (fillSlot node content slot.2).total (Query.directWeight f)).sum).sum := by
      simp only [List.map_map, Function.comp_def, Expr.total, Expr.slots_mapSlots]
    have whole : q.fillMarkers node content = q.mapParts (FromItem.fillMarkers node content)
        (Expr.mapSlots (fillSlot node content)) := Query.fillMarkers_eq node content q
    rw [whole, Query.total_eq, Query.total_eq (markerGone node f),
      Query.total_eq (Query.directWeight f) q, Query.total_eq (markerCome node content f),
      Query.exprs_mapParts, Query.fromList_mapParts, List.map_map]
    have direct : Query.directWeight f (q.mapParts (FromItem.fillMarkers node content)
        (Expr.mapSlots (fillSlot node content))) = q.directWeight f := by
      rw [directWeight_eq, directWeight_eq, Query.fromList_mapParts, List.map_map]
      simp only [Function.comp_def, FromItem.directPlaceholders_fillMarkers]
    rw [direct, filled, gone, come]
    simp only [Function.comp_def]
    unfold Expr.total
    omega
  table := fun t => rfl
  derived := by
    intro q ih
    rw [FromItem.fillMarkers_subquery]
    exact ih
  join := by
    intro left right kind on ihLeft ihRight slots
    have inOn := exprs_balance (fun slot => slot.fillMarkers node content)
      fun e member => slots e (Option.mem_toList.mp member)
    rw [FromItem.fillMarkers_join, FromItem.total_join, FromItem.total_join, FromItem.total_join,
      FromItem.total_join, Option.toList_map]
    omega
  placeholder := fun ref => rfl

private theorem total_tableGone (q : Query) :
    q.total (tableGone node f) = ((q.tableRefs node).map f).sum := by
  rw [Query.tableRefs, sum_map_flatMap, Query.total]
  congr 1
  refine List.map_congr_left fun level _ => ?_
  unfold tableGone
  split <;> rfl

private theorem total_tableCome (q : Query) :
    q.total (tableCome node content f)
      = q.tableSites node * (content.placeholders.map f).sum := by
  rw [Query.tableSites, List.length_flatMap, Query.sum_placeholders,
    ← List.sum_map_mul_right (R := Nat), Query.total]
  congr 1
  refine List.map_congr_left fun level _ => ?_
  unfold tableCome
  split <;> simp

private theorem markerGone_eq (level : Query) :
    markerGone node f level = ((((level.exprs.flatMap Expr.slots).filter fun slot =>
      slot.2.marker? = some node).flatMap fun slot => slot.2.directPlaceholders).map f).sum := by
  unfold markerGone
  induction level.exprs.flatMap Expr.slots with
  | nil => rfl
  | cons slot rest ih =>
    by_cases marker : slot.2.marker? = some node
    · simp [marker, ih]
      rfl
    · simp [marker, ih]

private theorem markerCome_eq (level : Query) :
    markerCome node content f level = ((level.exprs.flatMap Expr.slots).filter fun slot =>
      slot.2.marker? = some node).length * content.total (Query.directWeight f) := by
  unfold markerCome
  induction level.exprs.flatMap Expr.slots with
  | nil => simp
  | cons slot rest ih =>
    by_cases marker : slot.2.marker? = some node
    · simp [marker, ih, Nat.add_mul, Nat.add_comm]
    · simp [marker, ih]

/-- Filling tables removes the placeholders it fills, and adds the content's own ones for each. -/
theorem Query.sum_fillTables (q : Query) :
    ((q.fillTables node content).placeholders.map f).sum + ((q.tableRefs node).map f).sum
      = (q.placeholders.map f).sum + q.tableSites node * (content.placeholders.map f).sum := by
  have balance := (tables_balance node content f).query q
  rw [total_tableGone, total_tableCome] at balance
  rw [sum_placeholders, sum_placeholders f q]
  exact balance

/-- Filling markers removes their placeholders, and adds the content's own ones for each. -/
theorem Query.sum_fillMarkers (q : Query) :
    ((q.fillMarkers node content).placeholders.map f).sum + ((q.markerRefs node).map f).sum
      = (q.placeholders.map f).sum + q.markerSites node * (content.placeholders.map f).sum := by
  have balance := (markers_balance node content f).query q
  have gone : q.total (markerGone node f) = ((q.markerRefs node).map f).sum := by
    rw [markerRefs, sum_map_flatMap, total]
    exact congrArg List.sum (List.map_congr_left fun level _ => markerGone_eq node f level)
  have come : q.total (markerCome node content f)
      = q.markerSites node * (content.placeholders.map f).sum := by
    rw [markerSites, List.length_flatMap, sum_placeholders, ← List.sum_map_mul_right (R := Nat), total]
    exact congrArg List.sum (List.map_congr_left fun level _ => markerCome_eq node content f level)
  rw [gone, come] at balance
  rw [sum_placeholders, sum_placeholders f q]
  exact balance

end Balance

namespace Query

variable {node : NodeId}

theorem node_of_mem_tableRefs {q : Query} {ref : PlaceholderRef}
    (member : ref ∈ q.tableRefs node) : ref.node = node := by
  obtain ⟨level, _, here⟩ := List.mem_flatMap.mp member
  split at here
  · cases here
  · exact of_decide_eq_true (List.mem_filter.mp here).2

theorem node_of_mem_markerRefs {q : Query} {ref : PlaceholderRef}
    (member : ref ∈ q.markerRefs node) : ref.node = node := by
  obtain ⟨level, _, here⟩ := List.mem_flatMap.mp member
  obtain ⟨slot, inSlots, direct⟩ := List.mem_flatMap.mp here
  obtain ⟨own, asName, same, marker⟩ :=
    marker?_eq_some.mp (of_decide_eq_true (List.mem_filter.mp inSlots).2)
  rw [marker] at direct
  exact (List.mem_singleton.mp direct) ▸ same

/-- A balance over a node that is read once: its one placeholder gives way to the content's. -/
private theorem replaced_once {old new refs content : List PlaceholderRef}
    (balance : ∀ f : PlaceholderRef → Nat, (new.map f).sum + (refs.map f).sum
      = (old.map f).sum + refs.length * (content.map f).sum)
    (drawn : ∀ f : PlaceholderRef → Nat, (refs.map f).sum ≤ (old.map f).sum)
    (own : ∀ ref ∈ refs, ref.node = node)
    (once : (old.filter fun ref => ref.node = node).length = 1) (found : refs.length ≠ 0) :
    refs.length = 1 ∧ new.Perm ((old.filter fun ref => ref.node ≠ node) ++ content) := by
  have inRefs : refs.countP (fun ref => ref.node = node) = refs.length :=
    List.countP_eq_length.mpr fun ref member => decide_eq_true (own ref member)
  have atMost := drawn fun ref => if decide (ref.node = node) then 1 else 0
  rw [sum_indicator, sum_indicator, inRefs, List.countP_eq_length_filter, once] at atMost
  have single : refs.length = 1 := by omega
  obtain ⟨ref, rfl⟩ := List.length_eq_one_iff.mp single
  -- The one that is filled is the only one there was.
  obtain ⟨other, only⟩ := List.length_eq_one_iff.mp once
  have counted (x : PlaceholderRef) : [ref].count x ≤ old.count x := by
    have := drawn fun r => if r == x then 1 else 0
    rwa [sum_indicator, sum_indicator] at this
  have inOld : ref ∈ old := List.count_pos_iff.mp
    (Nat.lt_of_lt_of_le (List.count_pos_iff.mpr List.mem_cons_self) (counted ref))
  have same : ref = other := by
    have inFilter : ref ∈ old.filter fun ref => ref.node = node :=
      List.mem_filter.mpr ⟨inOld, decide_eq_true (own ref List.mem_cons_self)⟩
    rw [only] at inFilter
    exact List.mem_singleton.mp inFilter
  have parted := List.filter_append_perm (fun ref : PlaceholderRef => decide (ref.node = node)) old
  rw [only, ← same] at parted
  refine ⟨single, List.perm_iff_count.mpr fun x => ?_⟩
  have balanced : new.count x + [ref].count x = old.count x + content.count x := by
    have := balance fun r => if r == x then 1 else 0
    rwa [sum_indicator, sum_indicator, sum_indicator, sum_indicator, single, Nat.one_mul] at this
  have split := parted.count_eq x
  rw [List.count_append] at split ⊢
  have negated : (old.filter fun ref => decide (ref.node ≠ node))
      = old.filter fun ref => !decide (ref.node = node) := by
    simp
  rw [negated]
  omega

private theorem sum_of_empty (f : PlaceholderRef → Nat) :
    ((default : Query).placeholders.map f).sum = 0 := rfl

/-- A node that is read once, by a table: its content comes in place of its placeholder. -/
theorem placeholders_fillTables {q : Query} (content : Query)
    (once : (q.placeholders.filter fun ref => ref.node = node).length = 1)
    (found : q.tableSites node ≠ 0) :
    q.tableSites node = 1 ∧ (q.fillTables node content).placeholders.Perm
      ((q.placeholders.filter fun ref => ref.node ≠ node) ++ content.placeholders) := by
  rw [tableSites_eq] at found ⊢
  refine replaced_once (sum_fillTables node content · q) ?_ (fun ref => node_of_mem_tableRefs) once found
  intro f
  have empty := sum_fillTables node default f q
  rw [sum_of_empty] at empty
  omega

/-- A node that is read once, in a slot: its content comes in place of its marker. -/
theorem placeholders_fillMarkers {q : Query} (content : Query)
    (once : (q.placeholders.filter fun ref => ref.node = node).length = 1)
    (found : q.markerSites node ≠ 0) :
    q.markerSites node = 1 ∧ (q.fillMarkers node content).placeholders.Perm
      ((q.placeholders.filter fun ref => ref.node ≠ node) ++ content.placeholders) := by
  have sites := markerSites_eq node q
  rw [sites] at found ⊢
  refine replaced_once (fun f => sites ▸ sum_fillMarkers node content f q) ?_
    (fun ref => node_of_mem_markerRefs) once found
  intro f
  have empty := sum_fillMarkers node default f q
  rw [sum_of_empty] at empty
  omega

/-- A balance at which nothing comes but from the old and the content. -/
private theorem mem_of_balance {old new refs content : List PlaceholderRef} {sites : Nat}
    (balance : ∀ f : PlaceholderRef → Nat, (new.map f).sum + (refs.map f).sum
      = (old.map f).sum + sites * (content.map f).sum) {ref : PlaceholderRef} (member : ref ∈ new) :
    ref ∈ old ∨ ref ∈ content := by
  by_contra neither
  rw [not_or] at neither
  have counted := balance fun r => if r == ref then 1 else 0
  simp only [sum_indicator] at counted
  have absent : old.countP (fun r => r == ref) = 0 := List.count_eq_zero.mpr neither.1
  have absent' : content.countP (fun r => r == ref) = 0 := List.count_eq_zero.mpr neither.2
  have present : 0 < new.countP (fun r => r == ref) := List.count_pos_iff.mpr member
  rw [absent, absent', Nat.mul_zero] at counted
  omega

theorem mem_placeholders_fillTables {q content : Query} {ref : PlaceholderRef}
    (member : ref ∈ (q.fillTables node content).placeholders) :
    ref ∈ q.placeholders ∨ ref ∈ content.placeholders :=
  mem_of_balance (sum_fillTables node content · q) member

theorem mem_placeholders_fillMarkers {q content : Query} {ref : PlaceholderRef}
    (member : ref ∈ (q.fillMarkers node content).placeholders) :
    ref ∈ q.placeholders ∨ ref ∈ content.placeholders :=
  mem_of_balance (sum_fillMarkers node content · q) member

end Query

end ApproxQuery
