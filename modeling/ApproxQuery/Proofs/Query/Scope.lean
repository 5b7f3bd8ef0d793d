import ApproxQuery.Proofs.Query.Graft
import ApproxQuery.Proofs.Query.Recovery

/-! Free names of a query, one level at a time. What is put in place of placeholders binds the same
names, so that nothing becomes free and nothing is caught. -/
namespace ApproxQuery

section Collecting

theorem Expr.freeRefsIn_eq (es : List Expr) : freeRefsIn es = es.flatMap freeRefs := by
  induction es with
  | nil => rfl
  | cons e rest ih => rw [freeRefsIn, ih, List.flatMap_cons]

theorem SelectItem.freeRefsIn_eq (items : List SelectItem) :
    freeRefsIn items = (items.map SelectItem.expr).flatMap Expr.freeRefs := by
  induction items with
  | nil => rfl
  | cons item rest ih =>
    rcases item with ⟨e, asName⟩
    rw [freeRefsIn, ih, List.map_cons, List.flatMap_cons]

theorem OrderItem.freeRefsIn_eq (items : List OrderItem) :
    freeRefsIn items = (items.map OrderItem.expr).flatMap Expr.freeRefs := by
  induction items with
  | nil => rfl
  | cons item rest ih =>
    rcases item with ⟨e, descending⟩
    rw [freeRefsIn, ih, List.map_cons, List.flatMap_cons]

theorem FromItem.freeRefsIn_eq (items : List FromItem) : freeRefsIn items = items.flatMap freeRefs := by
  induction items with
  | nil => rfl
  | cons item rest ih => rw [freeRefsIn, ih, List.flatMap_cons]

theorem Expr.qualifiersIn_eq (es : List Expr) : qualifiersIn es = es.flatMap qualifiers := by
  induction es with
  | nil => rfl
  | cons e rest ih => rw [qualifiersIn, ih, List.flatMap_cons]

/-- The free names of a level: those of its expressions and items that its from-list does not bind. -/
theorem Query.freeRefs_eq (q : Query) :
    q.freeRefs = (q.exprs.flatMap Expr.freeRefs ++ q.fromList.flatMap FromItem.freeRefs).filter
      fun name => !q.boundNames.contains name := by
  rcases q with ⟨selectList, fromList, filter, groupBy, having, orderBy, limit, asName⟩
  cases filter <;> cases having <;>
    simp [Query.freeRefs, Query.exprs, Query.boundNames, FromItem.freeRefsIn_eq,
      SelectItem.freeRefsIn_eq, Expr.freeRefsIn_eq, OrderItem.freeRefsIn_eq]

theorem FromItem.freeRefs_join (left right : FromItem) (kind : JoinKind) (on : Option Expr) :
    (FromItem.join left right kind on).freeRefs
      = left.freeRefs ++ right.freeRefs ++ on.toList.flatMap Expr.freeRefs := by
  cases on with
  | none => rfl
  | some e => simp [freeRefs]

/-- Every table of a from-list is bound by its reference name. -/
theorem FromItem.referenceName_mem_boundNames {item : FromItem} {t : BaseTable}
    (member : t ∈ item.directTables) : t.referenceName ∈ item.boundNames := by
  induction item using FromItem.treeInduction with
  | table own => exact List.mem_map_of_mem (f := BaseTable.referenceName) member
  | subquery q => cases member
  | join left right kind on ihLeft ihRight =>
    exact List.mem_append.mpr ((List.mem_append.mp member).imp ihLeft ihRight)
  | placeholder ref => cases member

theorem Query.referenceName_mem_boundNames {q : Query} {t : BaseTable} (member : t ∈ q.directTables) :
    t.referenceName ∈ q.boundNames := by
  obtain ⟨item, inList, inItem⟩ := List.mem_flatMap.mp member
  exact List.mem_flatMap.mpr ⟨item, inList, FromItem.referenceName_mem_boundNames inItem⟩

end Collecting

variable {name : String}

namespace Query

theorem mem_freeRefs {q : Query} : name ∈ q.freeRefs ↔ ((∃ e ∈ q.exprs, name ∈ e.freeRefs)
    ∨ ∃ item ∈ q.fromList, name ∈ item.freeRefs) ∧ name ∉ q.boundNames := by
  rw [freeRefs_eq, List.mem_filter, List.mem_append, List.mem_flatMap, List.mem_flatMap]
  simp

theorem freeRefs_rename (q : Query) (asName : Option String) :
    ({ q with asName } : Query).freeRefs = q.freeRefs := by
  rw [freeRefs_eq, freeRefs_eq]
  rfl

theorem isCorrelated_eq_false {q : Query} : q.isCorrelated = false ↔ q.freeRefs = [] := by
  simp [isCorrelated]

/-- Only queries without free names are reached. -/
theorem Reaches.freeRefs {q sub : Query} (reaches : q.Reaches sub) : sub.freeRefs = [] := by
  induction reaches with
  | part _ free => exact isCorrelated_eq_false.mp free
  | through _ _ _ ih => exact ih

theorem freeNames_eq_nil {q : Query} : q.freeNames = [] ↔ q.freeRefs = [] := by
  rw [freeNames, List.eq_nil_iff_forall_not_mem, List.eq_nil_iff_forall_not_mem]
  simp only [mem_ascending]

end Query

namespace Expr

/-- The free names of an expression: its own qualifiers, and what is free in its slots. -/
theorem mem_freeRefs {e : Expr} : name ∈ e.freeRefs ↔ name ∈ e.qualifiers
    ∨ ∃ slot ∈ e.slots, name ∈ slot.2.freeRefs := by
  refine ExprRule.expr (E := fun e => name ∈ e.freeRefs ↔ name ∈ e.qualifiers
    ∨ ∃ slot ∈ e.slots, name ∈ slot.2.freeRefs) ?_ e
  constructor
  case func =>
    intro func args distinct ih
    rw [freeRefs, freeRefsIn_eq, qualifiers, qualifiersIn_eq, slots, slotsIn_eq]
    simp only [List.mem_flatMap]
    constructor
    · rintro ⟨e, member, free⟩
      rcases (ih e member).mp free with own | ⟨slot, inSlots, inside⟩
      · exact .inl ⟨e, member, own⟩
      · exact .inr ⟨slot, ⟨e, member, inSlots⟩, inside⟩
    · rintro (⟨e, member, own⟩ | ⟨slot, ⟨e, member, inSlots⟩, inside⟩)
      · exact ⟨e, member, (ih e member).mpr (.inl own)⟩
      · exact ⟨e, member, (ih e member).mpr (.inr ⟨slot, inSlots, inside⟩)⟩
  case binary =>
    intro op left right ihLeft ihRight
    simp only [freeRefs, qualifiers, slots, List.mem_append, ihLeft, ihRight, or_and_right, exists_or]
    exact or_or_or_comm
  case not => exact fun operand ih => ih
  case isNull => exact fun operand negated ih => ih
  case inSubquery =>
    intro operand query negated ih
    simp only [freeRefs, qualifiers, slots, List.mem_append, List.mem_singleton, ih, or_and_right,
      exists_or, exists_eq_left, or_assoc]
  case subquery => simp [freeRefs, qualifiers, slots]
  case existsSubquery => simp [freeRefs, qualifiers, slots]
  case column => simp [freeRefs, qualifiers, slots]
  case literal => simp [freeRefs, qualifiers, slots]
  case star => simp [freeRefs, qualifiers, slots]

/-- Changing the queries in slots leaves the qualifiers. -/
@[simp] theorem qualifiers_mapSlots (change : Query → Query) (e : Expr) :
    (e.mapSlots change).qualifiers = e.qualifiers := by
  refine ExprRule.expr (E := fun e => (e.mapSlots change).qualifiers = e.qualifiers) ?_ e
  constructor
  case func =>
    intro func args distinct ih
    rw [mapSlots_func, qualifiers, qualifiers, qualifiersIn_eq, qualifiersIn_eq, List.flatMap_map]
    exact List.flatMap_congr ih
  case binary =>
    intro op left right ihLeft ihRight
    rw [mapSlots_binary, qualifiers, qualifiers, ihLeft, ihRight]
  case not => exact fun operand ih => ih
  case isNull => exact fun operand negated ih => ih
  case inSubquery => exact fun operand query negated ih => ih
  all_goals intros; rfl

theorem mem_freeRefs_mapSlots {change : Query → Query} {e : Expr}
    (slots : ∀ slot ∈ e.slots, (name ∈ (change slot.2).freeRefs ↔ name ∈ slot.2.freeRefs)) :
    name ∈ (e.mapSlots change).freeRefs ↔ name ∈ e.freeRefs := by
  rw [mem_freeRefs, mem_freeRefs, qualifiers_mapSlots, slots_mapSlots]
  simp only [List.mem_map, exists_exists_and_eq_and]
  exact or_congr_right (exists_congr fun slot => and_congr_right (slots slot))

end Expr

theorem Query.boundNames_mapParts {onItem : FromItem → FromItem} {onExpr : Expr → Expr} {q : Query}
    (bound : ∀ item ∈ q.fromList, (onItem item).boundNames = item.boundNames) :
    (q.mapParts onItem onExpr).boundNames = q.boundNames := by
  rw [boundNames, fromList_mapParts, List.flatMap_map]
  exact List.flatMap_congr bound

/-- A change of the parts keeps what is free when the items bind the same and the parts leave the
same free. -/
theorem Query.mem_freeRefs_mapParts {onItem : FromItem → FromItem} {change : Query → Query} {q : Query}
    (bound : ∀ item ∈ q.fromList, (onItem item).boundNames = item.boundNames)
    (items : ∀ item ∈ q.fromList, (name ∈ (onItem item).freeRefs ↔ name ∈ item.freeRefs))
    (slots : ∀ e ∈ q.exprs, ∀ slot ∈ e.slots,
      (name ∈ (change slot.2).freeRefs ↔ name ∈ slot.2.freeRefs)) :
    name ∈ (q.mapParts onItem (Expr.mapSlots change)).freeRefs ↔ name ∈ q.freeRefs := by
  simp only [mem_freeRefs, boundNames_mapParts bound, exprs_mapParts, fromList_mapParts, List.mem_map,
    exists_exists_and_eq_and]
  refine and_congr_left' (or_congr ?_ ?_)
  · exact exists_congr fun e => and_congr_right fun own => Expr.mem_freeRefs_mapSlots (slots e own)
  · exact exists_congr fun item => and_congr_right (items item)

theorem FromItem.mem_freeRefs_join_map {left right left' right' : FromItem} {kind : JoinKind}
    {on : Option Expr} {change : Query → Query} (inLeft : name ∈ left'.freeRefs ↔ name ∈ left.freeRefs)
    (inRight : name ∈ right'.freeRefs ↔ name ∈ right.freeRefs)
    (slots : ∀ e, on = some e → ∀ slot ∈ e.slots,
      (name ∈ (change slot.2).freeRefs ↔ name ∈ slot.2.freeRefs)) :
    name ∈ (FromItem.join left' right' kind (on.map (Expr.mapSlots change))).freeRefs
      ↔ name ∈ (FromItem.join left right kind on).freeRefs := by
  rw [freeRefs_join, freeRefs_join, List.mem_append, List.mem_append, List.mem_append, List.mem_append]
  refine or_congr (or_congr inLeft inRight) ?_
  cases on with
  | none => exact Iff.rfl
  | some e => simpa using Expr.mem_freeRefs_mapSlots (slots e rfl)

section Grafting

variable {tables slots : NodeId → Option Query}

/-- What takes the place of a placeholder bears its alias. -/
theorem FromItem.boundNames_graft (item : FromItem) :
    (item.graft tables slots).boundNames = item.boundNames := by
  induction item using FromItem.treeInduction with
  | table t => rw [graft_table]
  | subquery q => rw [graft_subquery, boundNames, boundNames, Query.asName_graft]
  | join left right kind on ihLeft ihRight =>
    rw [graft_join, boundNames, boundNames, ihLeft, ihRight]
  | placeholder ref =>
    rw [graft_placeholder]
    split
    · rfl
    · rfl

/-- Putting queries without free names in place of placeholders makes no name free, and catches
none. -/
theorem Query.mem_freeRefs_graft
    (closedTables : ∀ d content, tables d = some content → content.freeRefs = [])
    (closedSlots : ∀ d content, slots d = some content → content.freeRefs = []) (q : Query) :
    name ∈ (q.graft tables slots).freeRefs ↔ name ∈ q.freeRefs := by
  have inSlot {q : Query} (same : name ∈ (q.graft tables slots).freeRefs ↔ name ∈ q.freeRefs) :
      name ∈ (graftSlot tables slots q).freeRefs ↔ name ∈ q.freeRefs := by
    unfold graftSlot
    split
    · rename_i content filled
      obtain ⟨d, marker, put⟩ := Option.bind_eq_some_iff.mp filled
      obtain ⟨ref, asName, _, rfl⟩ := marker?_eq_some.mp marker
      have nothing : (selectAll (.placeholder ref)).freeRefs = [] := rfl
      rw [freeRefs_rename, freeRefs_rename, closedSlots d content put, nothing]
    · exact same
  have rule : LevelRule (fun q => name ∈ (q.graft tables slots).freeRefs ↔ name ∈ q.freeRefs)
      fun item => name ∈ (item.graft tables slots).freeRefs ↔ name ∈ item.freeRefs := by
    constructor
    case level =>
      intro q items levels
      rw [graft_eq]
      refine mem_freeRefs_mapParts (fun item _ => item.boundNames_graft) items ?_
      exact fun e own slot inSlots => inSlot (levels e own slot inSlots)
    case table => exact fun t => by rw [FromItem.graft_table]
    case derived =>
      intro q ih
      rw [FromItem.graft_subquery]
      exact ih
    case join =>
      intro left right kind on ihLeft ihRight levels
      rw [FromItem.graft_join]
      refine FromItem.mem_freeRefs_join_map ihLeft ihRight ?_
      exact fun e condition slot inSlots => inSlot (levels e condition slot inSlots)
    case placeholder =>
      intro ref
      rw [FromItem.graft_placeholder]
      split
      · rename_i content put
        rw [FromItem.freeRefs, freeRefs_rename, closedTables _ content put, FromItem.freeRefs]
      · exact Iff.rfl
  exact rule.query q

end Grafting

section Recovering

private theorem Expr.mem_freeRefsIn_of_recovers {es es' : List Expr}
    (each : ∀ e ∈ es, ∀ e' : Expr, e'.Recovers e → name ∈ e'.freeRefs → name ∈ e.freeRefs)
    (recovers : Expr.RecoversIn es' es) (free : name ∈ freeRefsIn es') : name ∈ freeRefsIn es := by
  induction es generalizing es' with
  | nil => cases recovers; exact free
  | cons e rest ih =>
    cases recovers with
    | cons first later =>
      apply List.mem_append.mpr
      refine (List.mem_append.mp free).imp (each e List.mem_cons_self _ first) ?_
      exact ih (fun e member => each e (List.mem_cons_of_mem _ member)) later

private theorem Expr.mem_freeRefs_of_recovers (e : Expr)
    (slots : ∀ slot ∈ e.slots, ∀ q', Query.RecoversSlot q' slot.2 → name ∈ q'.freeRefs →
      name ∈ slot.2.freeRefs) (e' : Expr) (recovers : e'.Recovers e) (free : name ∈ e'.freeRefs) :
    name ∈ e.freeRefs := by
  revert slots e'
  refine ExprRule.expr (E := fun e =>
    (∀ slot ∈ e.slots, ∀ q', Query.RecoversSlot q' slot.2 → name ∈ q'.freeRefs →
      name ∈ slot.2.freeRefs) →
      ∀ e' : Expr, e'.Recovers e → name ∈ e'.freeRefs → name ∈ e.freeRefs) ?_ e
  constructor
  case column => intro table name _ e' recovers free; cases recovers; exact free
  case literal => intro value _ e' recovers free; cases recovers; exact free
  case star => intro table _ e' recovers free; cases recovers; exact free
  case func =>
    intro func args distinct ih slots e' recovers free
    rw [Expr.slots, slotsIn_eq] at slots
    cases recovers with
    | func _ _ inArgs =>
      refine mem_freeRefsIn_of_recovers (fun e member => ih e member fun slot inSlots => ?_) inArgs free
      exact slots slot (List.mem_flatMap.mpr ⟨e, member, inSlots⟩)
  case binary =>
    intro op left right ihLeft ihRight slots e' recovers free
    cases recovers with
    | binary _ first second =>
      apply List.mem_append.mpr
      refine (List.mem_append.mp free).imp (ihLeft ?_ _ first) (ihRight ?_ _ second)
      · exact fun slot member => slots slot (List.mem_append_left _ member)
      · exact fun slot member => slots slot (List.mem_append_right _ member)
  case not =>
    intro operand ih slots e' recovers free
    cases recovers with
    | not inside => exact ih slots _ inside free
  case isNull =>
    intro operand negated ih slots e' recovers free
    cases recovers with
    | isNull _ inside => exact ih slots _ inside free
  case subquery =>
    intro query slots e' recovers free
    cases recovers with
    | subquery inside => exact slots _ List.mem_cons_self _ inside free
  case inSubquery =>
    intro operand query negated ih slots e' recovers free
    cases recovers with
    | inSubquery _ inside own =>
      apply List.mem_append.mpr
      refine (List.mem_append.mp free).imp (ih ?_ _ inside) (slots (.membership, query) ?_ _ own)
      · exact fun slot member => slots slot (List.mem_append_left _ member)
      · exact List.mem_append_right _ List.mem_cons_self
  case existsSubquery =>
    intro query negated slots e' recovers free
    cases recovers with
    | existsSubquery _ inside => exact slots _ List.mem_cons_self _ inside free

/-- What is recovered leaves no more names free than the original, and binds as many. -/
private structure FromItem.Covers (name : String) (found item : FromItem) : Prop where
  free : name ∈ found.freeRefs → name ∈ item.freeRefs
  bound : name ∈ item.boundNames → name ∈ found.boundNames

private theorem FromItem.covers_of_recovers {item item' : FromItem}
    (tables : ∀ d ∈ item.directSubqueries, ∀ found : FromItem, found.Recovers (.subquery d) →
      Covers name found (.subquery d)) (recovers : item'.Recovers item) : Covers name item' item := by
  induction item using FromItem.treeInduction generalizing item' with
  | table t =>
    cases recovers
    exact ⟨id, id⟩
  | subquery q => exact tables q List.mem_cons_self item' recovers
  | join left right kind on ihLeft ihRight =>
    cases recovers with
    | @join _ left' _ right' _ _ first second =>
      have inLeft := ihLeft (fun d member => tables d (List.mem_append_left _ member)) first
      have inRight := ihRight (fun d member => tables d (List.mem_append_right _ member)) second
      constructor
      · intro free
        rw [freeRefs_join, List.mem_append, List.mem_append] at free ⊢
        exact free.imp_left (Or.imp inLeft.free inRight.free)
      · intro bound
        exact List.mem_append.mpr ((List.mem_append.mp bound).imp inLeft.bound inRight.bound)
  | placeholder ref =>
    cases recovers
    exact ⟨id, id⟩

private theorem FromItem.coversIn_of_recoversIn {items items' : List FromItem}
    (tables : ∀ d ∈ items.flatMap FromItem.directSubqueries, ∀ found : FromItem,
      found.Recovers (.subquery d) → Covers name found (.subquery d))
    (recovers : FromItem.RecoversIn items' items) :
    (name ∈ freeRefsIn items' → name ∈ freeRefsIn items)
      ∧ (name ∈ items.flatMap boundNames → name ∈ items'.flatMap boundNames) := by
  induction items generalizing items' with
  | nil =>
    cases recovers
    exact ⟨id, id⟩
  | cons item rest ih =>
    cases recovers with
    | cons first later =>
      have own := covers_of_recovers (fun d member => tables d (List.mem_append_left _ member)) first
      obtain ⟨free, bound⟩ := ih (fun d member => tables d (List.mem_append_right _ member)) later
      constructor
      · exact fun member => List.mem_append.mpr ((List.mem_append.mp member).imp own.free free)
      · exact fun member => List.mem_append.mpr ((List.mem_append.mp member).imp own.bound bound)

/-- What recovers a query leaves no more names free: what was cut out is read under its alias or a
new one. -/
theorem Query.Recovers.freeRefs_subset (q : Query) {r : Query} (recovers : r.Recovers q) :
    r.freeRefs ⊆ q.freeRefs := by
  intro name
  induction q using nestedInduction generalizing r with
  | level q ihListed ihSlotted =>
    have tables (d) (member : d ∈ q.directSubqueries) (found : FromItem)
        (recovers : found.Recovers (.subquery d)) : FromItem.Covers name found (.subquery d) := by
      have listed : d ∈ q.listed := by
        obtain ⟨item, inList, inItem⟩ := List.mem_flatMap.mp member
        exact List.mem_flatMap.mpr ⟨item, inList, FromItem.listed_of_derived inItem⟩
      have inside {asName : Option String} {r : Query} (recovers : r.Recovers { d with asName })
          (free : name ∈ r.freeRefs) : name ∈ d.freeRefs :=
        ihListed d listed recovers.own (by rwa [freeRefs_rename])
      cases recovers with
      | correlated => exact ⟨id, id⟩
      | searched _ _ recovers =>
        have same := recovers.asName_eq
        exact ⟨ihListed d listed recovers, fun bound => by rwa [FromItem.boundNames, same]⟩
      | named _ _ own recovers =>
        refine ⟨fun free => inside recovers ?_, fun bound => ?_⟩
        · rwa [FromItem.freeRefs, freeRefs_rename] at free
        · rwa [FromItem.boundNames, own] at bound
      | drawn _ _ _ none recovers =>
        refine ⟨fun free => inside recovers ?_, fun bound => ?_⟩
        · rwa [FromItem.freeRefs, freeRefs_rename] at free
        · rw [FromItem.boundNames, none] at bound
          cases bound
    have slots (slot) (member : slot ∈ q.filter.toList.flatMap Expr.slots) (found : Query)
        (recovers : Query.RecoversSlot found slot.2) (free : name ∈ found.freeRefs) :
        name ∈ slot.2.freeRefs := by
      have slotted : slot.2 ∈ q.slotted := by
        obtain ⟨e, own, inSlots⟩ := List.mem_flatMap.mp member
        refine mem_slotted.mpr ⟨e, ?_, slot, inSlots, rfl⟩
        simp only [exprs, List.mem_append]
        exact .inl (.inl (.inl (.inr own)))
      cases recovers with
      | correlated => exact free
      | searched _ _ recovers => exact ihSlotted slot.2 slotted recovers free
      | unnamed _ _ recovers =>
        apply ihSlotted slot.2 slotted recovers.own
        rwa [freeRefs_rename]
    cases recovers with
    | @level _ _ _ filter filter' _ _ _ _ _ items inFilter =>
      obtain ⟨inItems, bound⟩ := FromItem.coversIn_of_recoversIn tables items
      intro free
      rw [mem_freeRefs, ← List.mem_flatMap (f := FromItem.freeRefs), ← FromItem.freeRefsIn_eq] at free ⊢
      refine ⟨free.1.imp ?_ inItems, fun member => free.2 (bound member)⟩
      simp only [exprs, List.mem_append, or_and_right, exists_or, Option.mem_toList]
      refine Or.imp_left (Or.imp_left (Or.imp_left (Or.imp_right ?_)))
      rintro ⟨e, same, inside⟩
      cases inFilter with
      | none => cases same
      | some recovers =>
        cases same
        refine ⟨_, rfl, Expr.mem_freeRefs_of_recovers _ (fun slot member => slots slot ?_) _ recovers inside⟩
        simpa using member

end Recovering

end ApproxQuery
