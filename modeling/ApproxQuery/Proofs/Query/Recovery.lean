import ApproxQuery.Proofs.Query.Slots
import ApproxQuery.Query.Scope

/-! What decomposition cuts out of a query, and what it takes for a query put together again to be
the one that was cut up. -/
namespace ApproxQuery

mutual

/-- The sub-queries cut out of a level: those that aggregate at their own level and could be
evaluated on their own, in derived tables, on both sides of joins and in the slots of the filter,
each before those cut out of it. Correlated queries are not entered. -/
def Query.cuts : Query → List Query
  | ⟨_, fromList, filter, _, _, _, _, _⟩ =>
    FromItem.cutsIn fromList ++ (match filter with | some e => e.cuts | none => [])

def FromItem.cuts : FromItem → List Query
  | .subquery query =>
    if query.isCorrelated then []
    else if query.isAggregateLevel then query :: query.cuts else query.cuts
  | .join left right _ _ => left.cuts ++ right.cuts
  | .table _ => []
  | .placeholder _ => []

def FromItem.cutsIn : List FromItem → List Query
  | [] => []
  | item :: rest => item.cuts ++ FromItem.cutsIn rest

def Expr.cuts : Expr → List Query
  | .subquery query =>
    if query.isCorrelated then []
    else if query.isAggregateLevel then query :: query.cuts else query.cuts
  | .inSubquery operand query _ =>
    operand.cuts ++
      (if query.isCorrelated then []
      else if query.isAggregateLevel then query :: query.cuts else query.cuts)
  | .existsSubquery query _ =>
    if query.isCorrelated then []
    else if query.isAggregateLevel then query :: query.cuts else query.cuts
  | .func _ args _ => Expr.cutsIn args
  | .binary _ left right => left.cuts ++ right.cuts
  | .not operand => operand.cuts
  | .isNull operand _ => operand.cuts
  | .column _ _ => []
  | .literal _ => []
  | .star _ => []

def Expr.cutsIn : List Expr → List Query
  | [] => []
  | e :: rest => e.cuts ++ Expr.cutsIn rest

end

/-- The sub-queries in which a level is searched: in its from-list and in the slots of its filter. -/
def Query.parts (q : Query) : List Query :=
  q.directSubqueries ++ (q.filter.toList.flatMap Expr.slots).map Prod.snd

/-- What is cut out in place of a sub-query. -/
def Query.cut (q : Query) : List Query :=
  if q.isCorrelated then []
  else if q.isAggregateLevel then q :: q.cuts else q.cuts

/-- A query is found below another without a correlated one in between. -/
inductive Query.Reaches : Query → Query → Prop
  | part {q sub : Query} : sub ∈ q.parts → sub.isCorrelated = false → Query.Reaches q sub
  | through {q sub found : Query} : sub ∈ q.parts → sub.isCorrelated = false →
      Query.Reaches sub found → Query.Reaches q found

section Cuts

private theorem FromItem.cuts_eq : ∀ item : FromItem, item.cuts = item.directSubqueries.flatMap Query.cut
  | .table _ => rfl
  | .placeholder _ => rfl
  | .subquery _ => (List.append_nil _).symm
  | .join left right _ _ => by
    rw [cuts, directSubqueries, List.flatMap_append, left.cuts_eq, right.cuts_eq]

private theorem FromItem.cutsIn_eq (items : List FromItem) :
    cutsIn items = (items.flatMap directSubqueries).flatMap Query.cut := by
  induction items with
  | nil => rfl
  | cons item rest ih => rw [cutsIn, ih, item.cuts_eq, List.flatMap_cons, List.flatMap_append]

private theorem Expr.cutsIn_eq (es : List Expr)
    (each : ∀ e ∈ es, e.cuts = e.slots.flatMap fun slot => slot.2.cut) :
    cutsIn es = (es.flatMap slots).flatMap fun slot => slot.2.cut := by
  induction es with
  | nil => rfl
  | cons e rest ih =>
    rw [cutsIn, each e List.mem_cons_self, ih fun e member => each e (List.mem_cons_of_mem _ member),
      List.flatMap_cons, List.flatMap_append]

private theorem Expr.cuts_eq (e : Expr) : e.cuts = e.slots.flatMap fun slot => slot.2.cut := by
  refine ExprRule.expr (E := fun e => e.cuts = e.slots.flatMap fun slot => slot.2.cut) ?_ e
  constructor
  case func =>
    intro name args distinct ih
    rw [cuts, slots, slotsIn_eq]
    exact cutsIn_eq args ih
  case binary =>
    intro op left right ihLeft ihRight
    rw [cuts, slots, List.flatMap_append, ihLeft, ihRight]
  case not => exact fun operand ih => ih
  case isNull => exact fun operand negated ih => ih
  case inSubquery =>
    intro operand query negated ih
    rw [cuts, slots, List.flatMap_append, ih, List.flatMap_singleton]
    rfl
  case subquery => exact fun query => (List.append_nil _).symm
  case existsSubquery => exact fun query negated => (List.append_nil _).symm
  all_goals intros; rfl

/-- What is cut out of a level is what is cut out in place of its parts. -/
theorem Query.cuts_eq (q : Query) : q.cuts = q.parts.flatMap cut := by
  rw [parts, List.flatMap_append, List.flatMap_map]
  rcases q with ⟨selectList, fromList, filter, groupBy, having, orderBy, limit, asName⟩
  have items := FromItem.cutsIn_eq fromList
  cases filter with
  | none => exact congrArg (· ++ []) items
  | some e =>
    have slots : e.cuts = ((some e).toList.flatMap Expr.slots).flatMap fun slot => slot.2.cut := by
      rw [Option.toList_some, List.flatMap_singleton, e.cuts_eq]
    exact congrArg₂ (· ++ ·) items slots

private theorem Query.mem_cut {found sub : Query} : found ∈ sub.cut ↔ sub.isCorrelated = false
    ∧ (found = sub ∧ sub.isAggregateLevel = true ∨ found ∈ sub.cuts) := by
  unfold cut
  cases correlated : sub.isCorrelated with
  | true => simp
  | false => cases level : sub.isAggregateLevel <;> simp

private theorem Query.reaches_of_mem_cuts (q : Query) :
    ∀ found ∈ q.cuts, q.Reaches found ∧ found.isAggregateLevel = true := by
  have rule : LevelRule (fun q => ∀ found ∈ q.cuts, q.Reaches found ∧ found.isAggregateLevel = true)
      (fun item => ∀ sub ∈ item.directSubqueries, ∀ found ∈ sub.cuts,
        sub.Reaches found ∧ found.isAggregateLevel = true) := by
    constructor
    case level =>
      intro q items slots found member
      rw [cuts_eq] at member
      obtain ⟨sub, inParts, inCut⟩ := List.mem_flatMap.mp member
      obtain ⟨free, here | below⟩ := mem_cut.mp inCut
      · obtain ⟨rfl, level⟩ := here
        exact ⟨.part inParts free, level⟩
      · have inside : sub.Reaches found ∧ found.isAggregateLevel = true := by
          rcases List.mem_append.mp inParts with inItems | inFilter
          · obtain ⟨item, inFrom, direct⟩ := List.mem_flatMap.mp inItems
            exact items item inFrom sub direct found below
          · obtain ⟨slot, inSlots, rfl⟩ := List.mem_map.mp inFilter
            obtain ⟨e, own, inExpr⟩ := List.mem_flatMap.mp inSlots
            refine slots e ?_ slot inExpr found below
            simp only [exprs, List.mem_append]
            exact .inl (.inl (.inl (.inr own)))
        exact ⟨.through inParts free inside.1, inside.2⟩
    case table =>
      intro t sub member
      cases member
    case placeholder =>
      intro ref sub member
      cases member
    case derived =>
      intro q ih sub member
      exact List.mem_singleton.mp member ▸ ih
    case join =>
      intro left right kind on ihLeft ihRight _ sub member
      rcases List.mem_append.mp member with inLeft | inRight
      · exact ihLeft sub inLeft
      · exact ihRight sub inRight
  exact rule.query q

/-- The queries cut out are those that are reached and aggregate at their own level. -/
theorem Query.mem_cuts {q found : Query} :
    found ∈ q.cuts ↔ q.Reaches found ∧ found.isAggregateLevel = true := by
  refine ⟨q.reaches_of_mem_cuts found, ?_⟩
  rintro ⟨reaches, level⟩
  induction reaches with
  | part inParts free =>
    rw [cuts_eq]
    exact List.mem_flatMap.mpr ⟨_, inParts, mem_cut.mpr ⟨free, .inl ⟨rfl, level⟩⟩⟩
  | through inParts free _ ih =>
    rw [cuts_eq]
    exact List.mem_flatMap.mpr ⟨_, inParts, mem_cut.mpr ⟨free, .inr (ih level)⟩⟩

end Cuts

mutual

/-- A query is the original but for aliases of what was cut out of it: a derived table without an
alias has a drawn one, and the query of a slot has none. -/
inductive Query.Recovers : Query → Query → Prop
  | level {selectList fromList fromList' filter filter' groupBy having orderBy limit asName} :
    FromItem.RecoversIn fromList' fromList → Expr.RecoversFilter filter' filter →
      Query.Recovers ⟨selectList, fromList', filter', groupBy, having, orderBy, limit, asName⟩
        ⟨selectList, fromList, filter, groupBy, having, orderBy, limit, asName⟩

inductive FromItem.Recovers : FromItem → FromItem → Prop
  | table (t : BaseTable) : FromItem.Recovers (.table t) (.table t)
  | placeholder (ref : PlaceholderRef) : FromItem.Recovers (.placeholder ref) (.placeholder ref)
  | join {left left' right right' : FromItem} {kind : JoinKind} {on : Option Expr} :
    FromItem.Recovers left' left → FromItem.Recovers right' right →
      FromItem.Recovers (.join left' right' kind on) (.join left right kind on)
  | correlated {q : Query} : q.isCorrelated = true → FromItem.Recovers (.subquery q) (.subquery q)
  | searched {q q' : Query} : q.isCorrelated = false → q.isAggregateLevel = false →
      Query.Recovers q' q → FromItem.Recovers (.subquery q') (.subquery q)
  | named {q q' : Query} {own : String} : q.isCorrelated = false → q.isAggregateLevel = true →
      q.asName = some own → Query.Recovers q' { q with asName := none } →
      FromItem.Recovers (.subquery { q' with asName := some own }) (.subquery q)
  | drawn {q q' : Query} (name : String) : q.isCorrelated = false → q.isAggregateLevel = true →
      q.asName = none → Query.Recovers q' { q with asName := none } →
      FromItem.Recovers (.subquery { q' with asName := some ("aqpalias_" ++ name) }) (.subquery q)

inductive FromItem.RecoversIn : List FromItem → List FromItem → Prop
  | nil : FromItem.RecoversIn [] []
  | cons {item item' : FromItem} {rest rest' : List FromItem} : FromItem.Recovers item' item →
      FromItem.RecoversIn rest' rest → FromItem.RecoversIn (item' :: rest') (item :: rest)

/-- The same about the query of a slot. -/
inductive Query.RecoversSlot : Query → Query → Prop
  | correlated {q : Query} : q.isCorrelated = true → Query.RecoversSlot q q
  | searched {q q' : Query} : q.isCorrelated = false → q.isAggregateLevel = false →
      Query.Recovers q' q → Query.RecoversSlot q' q
  | unnamed {q q' : Query} : q.isCorrelated = false → q.isAggregateLevel = true →
      Query.Recovers q' { q with asName := none } → Query.RecoversSlot q' q

inductive Expr.Recovers : Expr → Expr → Prop
  | column (table : Option String) (name : String) :
    Expr.Recovers (.column table name) (.column table name)
  | literal (value : Literal) : Expr.Recovers (.literal value) (.literal value)
  | star (table : Option String) : Expr.Recovers (.star table) (.star table)
  | func {args args' : List Expr} (name : String) (distinct : Bool) : Expr.RecoversIn args' args →
      Expr.Recovers (.func name args' distinct) (.func name args distinct)
  | binary {left left' right right' : Expr} (op : BinaryOp) : Expr.Recovers left' left →
      Expr.Recovers right' right → Expr.Recovers (.binary op left' right') (.binary op left right)
  | not {operand operand' : Expr} : Expr.Recovers operand' operand →
      Expr.Recovers (.not operand') (.not operand)
  | isNull {operand operand' : Expr} (negated : Bool) : Expr.Recovers operand' operand →
      Expr.Recovers (.isNull operand' negated) (.isNull operand negated)
  | subquery {query query' : Query} : Query.RecoversSlot query' query →
      Expr.Recovers (.subquery query') (.subquery query)
  | inSubquery {operand operand' : Expr} {query query' : Query} (negated : Bool) :
    Expr.Recovers operand' operand → Query.RecoversSlot query' query →
      Expr.Recovers (.inSubquery operand' query' negated) (.inSubquery operand query negated)
  | existsSubquery {query query' : Query} (negated : Bool) : Query.RecoversSlot query' query →
      Expr.Recovers (.existsSubquery query' negated) (.existsSubquery query negated)

inductive Expr.RecoversIn : List Expr → List Expr → Prop
  | nil : Expr.RecoversIn [] []
  | cons {e e' : Expr} {rest rest' : List Expr} : Expr.Recovers e' e →
      Expr.RecoversIn rest' rest → Expr.RecoversIn (e' :: rest') (e :: rest)

inductive Expr.RecoversFilter : Option Expr → Option Expr → Prop
  | none : Expr.RecoversFilter none none
  | some {e e' : Expr} : Expr.Recovers e' e → Expr.RecoversFilter (some e') (some e)

end

theorem Query.Recovers.rename {q q' : Query} (recovers : q'.Recovers q) (asName : Option String) :
    ({ q' with asName } : Query).Recovers { q with asName } := by
  cases recovers with
  | level items filter => exact .level items filter

/-- What recovers a query under some alias recovers it under its own. -/
theorem Query.Recovers.own {q q' : Query} {asName : Option String}
    (recovers : q'.Recovers { q with asName }) : ({ q' with asName := q.asName } : Query).Recovers q := by
  have renamed := recovers.rename q.asName
  cases q
  exact renamed

theorem Query.Recovers.asName_eq {q q' : Query} (recovers : q'.Recovers q) : q'.asName = q.asName := by
  cases recovers with
  | level items filter => rfl

end ApproxQuery
