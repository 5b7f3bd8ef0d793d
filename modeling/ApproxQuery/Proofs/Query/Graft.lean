import ApproxQuery.Proofs.Query.Placeholders

/-! Grafting puts queries in place of all placeholders at once. Filling the placeholders of one
node first does not change what grafting makes of a query. -/
namespace ApproxQuery

mutual

/-- Puts a query in place of each placeholder: in a slot that holds a marker the one of `slots`,
without an alias, and elsewhere the one of `tables`, under the placeholder's alias. -/
def Query.graft (tables slots : NodeId → Option Query) : Query → Query
  | ⟨selectList, fromList, filter, groupBy, having, orderBy, limit, asName⟩ =>
    ⟨SelectItem.graftIn tables slots selectList, FromItem.graftIn tables slots fromList,
      (match filter with | some e => some (e.graft tables slots) | none => none),
      Expr.graftIn tables slots groupBy,
      (match having with | some e => some (e.graft tables slots) | none => none),
      OrderItem.graftIn tables slots orderBy, limit, asName⟩

def Expr.graft (tables slots : NodeId → Option Query) : Expr → Expr
  | .subquery query => .subquery (match query.marker?.bind slots with
      | some content => { content with asName := none }
      | none => query.graft tables slots)
  | .inSubquery operand query negated =>
    .inSubquery (operand.graft tables slots) (match query.marker?.bind slots with
      | some content => { content with asName := none }
      | none => query.graft tables slots) negated
  | .existsSubquery query negated => .existsSubquery (match query.marker?.bind slots with
      | some content => { content with asName := none }
      | none => query.graft tables slots) negated
  | .func name args distinct => .func name (Expr.graftIn tables slots args) distinct
  | .binary op left right => .binary op (left.graft tables slots) (right.graft tables slots)
  | .not operand => .not (operand.graft tables slots)
  | .isNull operand negated => .isNull (operand.graft tables slots) negated
  | .column table name => .column table name
  | .literal value => .literal value
  | .star table => .star table

def FromItem.graft (tables slots : NodeId → Option Query) : FromItem → FromItem
  | .placeholder ref =>
    match tables ref.node with
    | some content => .subquery { content with asName := some ref.asName }
    | none => .placeholder ref
  | .subquery query => .subquery (query.graft tables slots)
  | .join left right kind on =>
    .join (left.graft tables slots) (right.graft tables slots) kind
      (match on with | some e => some (e.graft tables slots) | none => none)
  | .table t => .table t

def Expr.graftIn (tables slots : NodeId → Option Query) : List Expr → List Expr
  | [] => []
  | e :: rest => e.graft tables slots :: Expr.graftIn tables slots rest

def SelectItem.graftIn (tables slots : NodeId → Option Query) : List SelectItem → List SelectItem
  | [] => []
  | ⟨e, asName⟩ :: rest => ⟨e.graft tables slots, asName⟩ :: SelectItem.graftIn tables slots rest

def OrderItem.graftIn (tables slots : NodeId → Option Query) : List OrderItem → List OrderItem
  | [] => []
  | ⟨e, descending⟩ :: rest =>
    ⟨e.graft tables slots, descending⟩ :: OrderItem.graftIn tables slots rest

def FromItem.graftIn (tables slots : NodeId → Option Query) : List FromItem → List FromItem
  | [] => []
  | item :: rest => item.graft tables slots :: FromItem.graftIn tables slots rest

end

/-- What a slot becomes: the content for its marker, or else itself with grafts below. -/
def Query.graftSlot (tables slots : NodeId → Option Query) (q : Query) : Query :=
  match q.marker?.bind slots with
  | some content => { content with asName := none }
  | none => q.graft tables slots

section Equations

variable (tables slots : NodeId → Option Query)

private theorem Expr.graftIn_eq (es : List Expr) :
    graftIn tables slots es = es.map (graft tables slots) := by
  induction es with
  | nil => rfl
  | cons e rest ih => rw [graftIn, ih, List.map_cons]

theorem Expr.graft_eq (e : Expr) :
    e.graft tables slots = e.mapSlots (Query.graftSlot tables slots) := by
  refine ExprRule.expr (E := fun e =>
    e.graft tables slots = e.mapSlots (Query.graftSlot tables slots)) ?_ e
  constructor
  case func =>
    intro name args distinct ih
    rw [graft, graftIn_eq, mapSlots_func]
    exact congrArg (Expr.func name · distinct) (List.map_congr_left ih)
  case binary =>
    intro op left right ihLeft ihRight
    rw [graft, ihLeft, ihRight, mapSlots_binary]
  case not =>
    intro operand ih
    rw [graft, ih, mapSlots_not]
  case isNull =>
    intro operand negated ih
    rw [graft, ih, mapSlots_isNull]
  case inSubquery =>
    intro operand query negated ih
    rw [graft, ih, mapSlots_inSubquery]
    rfl
  all_goals intros; rw [graft]; rfl

private theorem FromItem.graftIn_eq (items : List FromItem) :
    graftIn tables slots items = items.map (graft tables slots) := by
  induction items with
  | nil => rfl
  | cons item rest ih => rw [graftIn, ih, List.map_cons]

private theorem SelectItem.graftIn_eq (items : List SelectItem) :
    graftIn tables slots items
      = items.map fun item => { item with expr := item.expr.graft tables slots } := by
  induction items with
  | nil => rfl
  | cons item rest ih =>
    rcases item with ⟨e, asName⟩
    rw [graftIn, ih, List.map_cons]

private theorem OrderItem.graftIn_eq (items : List OrderItem) :
    graftIn tables slots items
      = items.map fun item => { item with expr := item.expr.graft tables slots } := by
  induction items with
  | nil => rfl
  | cons item rest ih =>
    rcases item with ⟨e, descending⟩
    rw [graftIn, ih, List.map_cons]

/-- Grafting, one level at a time. -/
theorem Query.graft_eq (q : Query) :
    q.graft tables slots = q.mapParts (FromItem.graft tables slots)
      (Expr.mapSlots (graftSlot tables slots)) := by
  have same : Expr.mapSlots (graftSlot tables slots) = Expr.graft tables slots :=
    funext fun e => (Expr.graft_eq tables slots e).symm
  rcases q with ⟨selectList, fromList, filter, groupBy, having, orderBy, limit, asName⟩
  rw [same]
  cases filter <;> cases having <;>
    simp [graft, mapParts, SelectItem.graftIn_eq, FromItem.graftIn_eq, Expr.graftIn_eq,
      OrderItem.graftIn_eq]

namespace FromItem

@[simp] theorem graft_table (t : BaseTable) :
    (FromItem.table t).graft tables slots = .table t := by rw [graft]

@[simp] theorem graft_subquery (q : Query) :
    (FromItem.subquery q).graft tables slots = .subquery (q.graft tables slots) := by rw [graft]

@[simp] theorem graft_join (left right : FromItem) (kind : JoinKind) (on : Option Expr) :
    (FromItem.join left right kind on).graft tables slots
      = .join (left.graft tables slots) (right.graft tables slots) kind
          (on.map (Expr.mapSlots (Query.graftSlot tables slots))) := by
  cases on with
  | none => rw [graft]; rfl
  | some e => rw [graft, Expr.graft_eq]; rfl

theorem graft_placeholder (ref : PlaceholderRef) :
    (FromItem.placeholder ref).graft tables slots = match tables ref.node with
      | some content => .subquery { content with asName := some ref.asName }
      | none => .placeholder ref := by
  rw [graft]

end FromItem

@[simp] theorem Query.asName_graft (q : Query) : (q.graft tables slots).asName = q.asName := by
  rw [graft_eq, asName_mapParts]

@[simp] theorem Query.isAggregateLevel_graft (q : Query) :
    (q.graft tables slots).isAggregateLevel = q.isAggregateLevel := by
  rw [graft_eq]
  exact isAggregateLevel_mapParts (Expr.containsAggregate_mapSlots _) q

theorem Query.graft_rename (q : Query) (asName : Option String) :
    ({ q with asName } : Query).graft tables slots = { q.graft tables slots with asName } := by
  rw [graft_eq, graft_eq]
  rfl

end Equations

/-- Grafts depend only on what is put in place of the placeholders that occur. -/
theorem Query.graft_congr {tables slots tables' slots' : NodeId → Option Query} {q : Query}
    (same : ∀ ref ∈ q.placeholders,
      tables ref.node = tables' ref.node ∧ slots ref.node = slots' ref.node) :
    q.graft tables slots = q.graft tables' slots' := by
  have onSlot (slot : Query) (below : slot.graft tables slots = slot.graft tables' slots')
      (same : ∀ ref ∈ slot.placeholders, slots ref.node = slots' ref.node) :
      slot.graftSlot tables slots = slot.graftSlot tables' slots' := by
    unfold graftSlot
    cases found : slot.marker? with
    | none => exact below
    | some node =>
      obtain ⟨ref, asName, here, whole⟩ := marker?_eq_some.mp found
      have agree := same ref (by rw [whole]; exact List.mem_cons_self)
      rw [Option.bind_some, Option.bind_some, ← here, agree, below]
  have rule : LevelRule
      (fun q => (∀ ref ∈ q.placeholders,
        tables ref.node = tables' ref.node ∧ slots ref.node = slots' ref.node) →
        q.graft tables slots = q.graft tables' slots')
      (fun item => (∀ ref ∈ item.placeholders,
        tables ref.node = tables' ref.node ∧ slots ref.node = slots' ref.node) →
        item.graft tables slots = item.graft tables' slots') := by
    constructor
    case level =>
      intro q items exprs same
      rw [graft_eq, graft_eq]
      apply mapParts_congr
      · intro item member
        exact items item member fun ref inItem => same ref (mem_placeholders.mpr (.inl ⟨item, member, inItem⟩))
      · intro e member
        refine Expr.mapSlots_congr fun slot inSlots => ?_
        have agree (ref) (inSlot : ref ∈ slot.2.placeholders) :=
          same ref (mem_placeholders.mpr (.inr ⟨e, member, slot, inSlots, inSlot⟩))
        exact onSlot slot.2 (exprs e member slot inSlots agree) fun ref inSlot => (agree ref inSlot).2
    case table => exact fun t _ => by rw [FromItem.graft_table, FromItem.graft_table]
    case derived =>
      intro q ih same
      rw [FromItem.graft_subquery, FromItem.graft_subquery, ih same]
    case join =>
      intro left right kind on ihLeft ihRight exprs same
      rw [FromItem.graft_join, FromItem.graft_join,
        ihLeft fun ref inLeft => same ref (FromItem.mem_placeholders_join.mpr (.inl inLeft)),
        ihRight fun ref inRight => same ref (FromItem.mem_placeholders_join.mpr (.inr (.inl inRight)))]
      refine congrArg (FromItem.join _ _ kind) (Option.map_congr fun e member => ?_)
      refine Expr.mapSlots_congr fun slot inSlots => ?_
      have agree (ref) (inSlot : ref ∈ slot.2.placeholders) := same ref
        (FromItem.mem_placeholders_join.mpr (.inr (.inr ⟨e, member, slot, inSlots, inSlot⟩)))
      exact onSlot slot.2 (exprs e member slot inSlots agree) fun ref inSlot => (agree ref inSlot).2
    case placeholder =>
      intro ref same
      rw [FromItem.graft_placeholder, FromItem.graft_placeholder, (same ref List.mem_cons_self).1]
  exact rule.query q same

theorem Query.graft_none (q : Query) : q.graft (fun _ => none) (fun _ => none) = q := by
  have onSlot (slot : Query) (below : slot.graft (fun _ => none) (fun _ => none) = slot) :
      slot.graftSlot (fun _ => none) (fun _ => none) = slot := by
    unfold graftSlot
    cases slot.marker? <;> exact below
  have rule : LevelRule (fun q => q.graft (fun _ => none) (fun _ => none) = q)
      (fun item => item.graft (fun _ => none) (fun _ => none) = item) := by
    constructor
    case level =>
      intro q items exprs
      rw [graft_eq]
      exact mapParts_eq_self items fun e member =>
        Expr.mapSlots_eq_self fun slot inSlots => onSlot slot.2 (exprs e member slot inSlots)
    case table => exact fun t => FromItem.graft_table _ _ t
    case derived =>
      intro q ih
      rw [FromItem.graft_subquery, ih]
    case join =>
      intro left right kind on ihLeft ihRight exprs
      rw [FromItem.graft_join, ihLeft, ihRight]
      refine congrArg (FromItem.join _ _ kind) ?_
      cases on with
      | none => rfl
      | some e =>
        exact congrArg some
          (Expr.mapSlots_eq_self fun slot inSlots => onSlot slot.2 (exprs e rfl slot inSlots))
    case placeholder => exact fun ref => FromItem.graft_placeholder _ _ ref
  exact rule.query q

/-- Where nothing is read, nothing is grafted. -/
theorem Query.graft_of_placeholders_eq_nil {tables slots : NodeId → Option Query} {q : Query}
    (none : q.placeholders = []) : q.graft tables slots = q := by
  refine (graft_congr fun ref member => ?_).trans (graft_none q)
  rw [none] at member
  cases member

theorem Query.graftSlot_of_placeholders_eq_nil {tables slots : NodeId → Option Query} {q : Query}
    (closed : q.placeholders = []) : q.graftSlot tables slots = q := by
  unfold graftSlot
  cases marker : q.marker? with
  | none => exact graft_of_placeholders_eq_nil closed
  | some node =>
    obtain ⟨ref, asName, _, rfl⟩ := marker?_eq_some.mp marker
    cases closed

section Filling

variable {tables slots : NodeId → Option Query} {node : NodeId} {content : Query}

/-- Filling a node's tables with what grafts to its graft changes no graft. -/
theorem Query.graft_fillTables (filled : tables node = some (content.graft tables slots))
    (q : Query) : (q.fillTables node content).graft tables slots = q.graft tables slots := by
  have onSlot (slot : Query)
      (below : (slot.fillTables node content).graft tables slots = slot.graft tables slots) :
      (slot.fillTables node content).graftSlot tables slots = slot.graftSlot tables slots := by
    rw [graftSlot, graftSlot, marker?_fillTables, below]
  have rule : LevelRule
      (fun q => (q.fillTables node content).graft tables slots = q.graft tables slots)
      (fun item => (item.fillTables node content).graft tables slots = item.graft tables slots) := by
    constructor
    case level =>
      intro q items exprs
      by_cases marker : q.marker? = some node
      · rw [fillTables_of_marker node content marker]
      · rw [fillTables_of_not_marker node content marker, graft_eq, graft_eq, mapParts_mapParts]
        refine mapParts_congr items fun e member => ?_
        rw [Expr.mapSlots_mapSlots]
        exact Expr.mapSlots_congr fun slot inSlots => onSlot slot.2 (exprs e member slot inSlots)
    case table => exact fun t => rfl
    case derived =>
      intro q ih
      rw [FromItem.fillTables_subquery, FromItem.graft_subquery, FromItem.graft_subquery, ih]
    case join =>
      intro left right kind on ihLeft ihRight exprs
      rw [FromItem.fillTables_join, FromItem.graft_join, FromItem.graft_join, ihLeft, ihRight,
        Option.map_map]
      refine congrArg (FromItem.join _ _ kind) (Option.map_congr fun e member => ?_)
      rw [Function.comp_apply, Expr.mapSlots_mapSlots]
      exact Expr.mapSlots_congr fun slot inSlots => onSlot slot.2 (exprs e member slot inSlots)
    case placeholder =>
      intro ref
      rw [FromItem.fillTables_placeholder]
      split
      · rename_i here
        rw [FromItem.graft_subquery, FromItem.graft_placeholder, here, filled, graft_rename]
      · rfl
  exact rule.query q

/-- Filling a node's markers with what grafts to its graft changes no graft, as long as that does
not make a marker again. -/
theorem Query.graft_fillMarkers (filled : slots node = some (content.graft tables slots))
    (unmarked : content.marker? = none) (q : Query) :
    (q.fillMarkers node content).graft tables slots = q.graft tables slots := by
  have onSlot (slot : Query)
      (below : (slot.fillMarkers node content).graft tables slots = slot.graft tables slots) :
      (slot.fillMarkers node content).graftSlot tables slots = slot.graftSlot tables slots := by
    rw [graftSlot, graftSlot, marker?_fillMarkers, below]
  have rule : LevelRule
      (fun q => (q.fillMarkers node content).graft tables slots = q.graft tables slots)
      (fun item => (item.fillMarkers node content).graft tables slots = item.graft tables slots) := by
    constructor
    case level =>
      intro q items exprs
      rw [fillMarkers_eq, graft_eq, graft_eq, mapParts_mapParts]
      refine mapParts_congr items fun e member => ?_
      rw [Expr.mapSlots_mapSlots]
      refine Expr.mapSlots_congr fun slot inSlots => ?_
      split
      · rename_i marker
        rw [graftSlot, marker?_rename, unmarked, graftSlot, marker, Option.bind_some, filled]
        exact graft_rename tables slots content none
      · exact onSlot slot.2 (exprs e member slot inSlots)
    case table => exact fun t => rfl
    case derived =>
      intro q ih
      rw [FromItem.fillMarkers_subquery, FromItem.graft_subquery, FromItem.graft_subquery, ih]
    case join =>
      intro left right kind on ihLeft ihRight exprs
      rw [FromItem.fillMarkers_join, FromItem.graft_join, FromItem.graft_join, ihLeft, ihRight,
        Option.map_map]
      refine congrArg (FromItem.join _ _ kind) (Option.map_congr fun e member => ?_)
      rw [Function.comp_apply, Expr.mapSlots_mapSlots]
      exact Expr.mapSlots_congr fun slot inSlots => onSlot slot.2 (exprs e member slot inSlots)
    case placeholder => exact fun ref => rfl
  exact rule.query q

end Filling

end ApproxQuery
