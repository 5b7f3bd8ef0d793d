import ApproxQuery.Proofs.Query.Levels
import ApproxQuery.Proofs.Query.Recovery

/-! Conditions on what is cut out of a query: which levels decomposition leaves looking like a
marker, and which sub-queries keep their aliases. With all aliases kept, a query that recovers the
original is the original. -/
namespace ApproxQuery

namespace Query

/-- A level `SELECT *` from one derived table that is cut out. What is left of it looks like the
marker of a slot. -/
def isLookalike : Query → Bool
  | ⟨[⟨.star none, none⟩], [.subquery d], none, [], none, [], none, _⟩ =>
    d.isAggregateLevel && !d.isCorrelated
  | _ => false

/-- A property of a query and of all queries reached in it. -/
def Throughout (P : Query → Prop) (q : Query) : Prop := P q ∧ ∀ level, q.Reaches level → P level

/-- No derived table of a level is a lookalike. -/
def TablesPlain (level : Query) : Prop := ∀ d ∈ level.directSubqueries, d.isLookalike = false

/-- No sub-query in a level's filter is a lookalike. -/
def SlotsPlain (level : Query) : Prop :=
  ∀ slot ∈ level.filter.toList.flatMap Expr.slots, slot.2.isLookalike = false

/-- What is cut out of a level has an alias as a derived table, and has none in the filter. -/
structure CutsNamed (level : Query) : Prop where
  table : ∀ d ∈ level.directSubqueries, d.isCorrelated = false → d.isAggregateLevel = true →
    d.asName ≠ none
  slot : ∀ slot ∈ level.filter.toList.flatMap Expr.slots, slot.2.isCorrelated = false →
    slot.2.isAggregateLevel = true → slot.2.asName = none

variable {q sub : Query} {P : Query → Prop}

theorem isLookalike_of_isAggregateLevel (aggregates : q.isAggregateLevel = true) :
    q.isLookalike = false := by
  unfold isLookalike
  split
  · cases aggregates
  · rfl

theorem Throughout.of_parts (own : P q)
    (parts : ∀ sub ∈ q.parts, sub.isCorrelated = false → sub.Throughout P) : q.Throughout P := by
  refine ⟨own, fun level reaches => ?_⟩
  cases reaches with
  | part member free => exact (parts level member free).1
  | through member free below => exact (parts _ member free).2 level below

theorem Throughout.part (throughout : q.Throughout P) (member : sub ∈ q.parts)
    (free : sub.isCorrelated = false) : sub.Throughout P :=
  ⟨throughout.2 sub (.part member free), fun level reaches => throughout.2 level (.through member free reaches)⟩

theorem Throughout.table (throughout : q.Throughout P) (member : sub ∈ q.directSubqueries)
    (free : sub.isCorrelated = false) : sub.Throughout P :=
  throughout.part (List.mem_append_left _ member) free

theorem Throughout.slot (throughout : q.Throughout P) {slot : SubqueryKind × Query}
    (member : slot ∈ q.filter.toList.flatMap Expr.slots) (free : slot.2.isCorrelated = false) :
    slot.2.Throughout P :=
  throughout.part (List.mem_append_right _ (List.mem_map_of_mem member)) free

theorem Reaches.trans {level below : Query} (first : q.Reaches level) (second : level.Reaches below) :
    q.Reaches below := by
  induction first with
  | part member free => exact .through member free second
  | through member free _ ih => exact .through member free (ih second)

theorem Throughout.reached (throughout : q.Throughout P) (reaches : q.Reaches sub) :
    sub.Throughout P :=
  ⟨throughout.2 sub reaches, fun level below => throughout.2 level (reaches.trans below)⟩

/-- What holds throughout a query holds throughout all that is cut out of it. -/
theorem Throughout.origin (throughout : q.Throughout P) {origin : Query} (member : origin ∈ q :: q.cuts) :
    origin.Throughout P := by
  rcases List.mem_cons.mp member with rfl | cut
  · exact throughout
  · exact throughout.reached (mem_cuts.mp cut).1

end Query

section Recovering

private theorem Expr.eq_of_recoversIn {es es' : List Expr}
    (each : ∀ e ∈ es, ∀ e' : Expr, e'.Recovers e → e' = e) (recovers : Expr.RecoversIn es' es) :
    es' = es := by
  induction es generalizing es' with
  | nil => cases recovers; rfl
  | cons e rest ih =>
    cases recovers with
    | cons first later =>
      rw [each e List.mem_cons_self _ first,
        ih (fun e member => each e (List.mem_cons_of_mem _ member)) later]

/-- An expression is recovered when the queries in its slots are. -/
private theorem Expr.eq_of_recovers (e : Expr)
    (slots : ∀ slot ∈ e.slots, ∀ q', Query.RecoversSlot q' slot.2 → q' = slot.2) (e' : Expr)
    (recovers : e'.Recovers e) : e' = e := by
  revert slots e'
  refine ExprRule.expr (E := fun e =>
    (∀ slot ∈ e.slots, ∀ q', Query.RecoversSlot q' slot.2 → q' = slot.2) →
      ∀ e' : Expr, e'.Recovers e → e' = e) ?_ e
  constructor
  case column => intro table name _ e' recovers; cases recovers; rfl
  case literal => intro value _ e' recovers; cases recovers; rfl
  case star => intro table _ e' recovers; cases recovers; rfl
  case func =>
    intro name args distinct ih slots e' recovers
    rw [Expr.slots, slotsIn_eq] at slots
    cases recovers with
    | func _ _ inArgs =>
      have each (e) (member : e ∈ args) := ih e member fun slot inSlots =>
        slots slot (List.mem_flatMap.mpr ⟨e, member, inSlots⟩)
      rw [eq_of_recoversIn each inArgs]
  case binary =>
    intro op left right ihLeft ihRight slots e' recovers
    cases recovers with
    | binary _ first second =>
      rw [ihLeft (fun slot member => slots slot (List.mem_append_left _ member)) _ first,
        ihRight (fun slot member => slots slot (List.mem_append_right _ member)) _ second]
  case not =>
    intro operand ih slots e' recovers
    cases recovers with
    | not inside => rw [ih slots _ inside]
  case isNull =>
    intro operand negated ih slots e' recovers
    cases recovers with
    | isNull _ inside => rw [ih slots _ inside]
  case subquery =>
    intro query slots e' recovers
    cases recovers with
    | subquery inside => rw [slots _ List.mem_cons_self _ inside]
  case inSubquery =>
    intro operand query negated ih slots e' recovers
    cases recovers with
    | inSubquery _ inside own =>
      rw [ih (fun slot member => slots slot (List.mem_append_left _ member)) _ inside,
        slots (.membership, query) (List.mem_append_right _ List.mem_cons_self) _ own]
  case existsSubquery =>
    intro query negated slots e' recovers
    cases recovers with
    | existsSubquery _ inside => rw [slots _ List.mem_cons_self _ inside]

/-- An item is recovered when its derived tables are. -/
private theorem FromItem.eq_of_recovers {item item' : FromItem}
    (tables : ∀ d ∈ item.directSubqueries, ∀ found : FromItem, found.Recovers (.subquery d) →
      found = .subquery d) (recovers : item'.Recovers item) : item' = item := by
  induction item using FromItem.treeInduction generalizing item' with
  | table t => cases recovers; rfl
  | subquery q => exact tables q List.mem_cons_self item' recovers
  | join left right kind on ihLeft ihRight =>
    cases recovers with
    | join first second =>
      rw [ihLeft (fun d member => tables d (List.mem_append_left _ member)) first,
        ihRight (fun d member => tables d (List.mem_append_right _ member)) second]
  | placeholder ref => cases recovers; rfl

private theorem FromItem.eq_of_recoversIn {items items' : List FromItem}
    (tables : ∀ d ∈ items.flatMap FromItem.directSubqueries, ∀ found : FromItem,
      found.Recovers (.subquery d) → found = .subquery d)
    (recovers : FromItem.RecoversIn items' items) : items' = items := by
  induction items generalizing items' with
  | nil => cases recovers; rfl
  | cons item rest ih =>
    cases recovers with
    | cons first later =>
      rw [eq_of_recovers (fun d member => tables d (List.mem_append_left _ member)) first,
        ih (fun d member => tables d (List.mem_append_right _ member)) later]

private theorem Query.rename_self {q : Query} {asName : Option String} (same : q.asName = asName) :
    ({ q with asName } : Query) = q := by
  subst same
  cases q
  rfl

/-- Where all that is cut out keeps its aliases, only the original recovers it. -/
theorem Query.Recovers.eq_of_named (q : Query) (named : q.Throughout CutsNamed) {r : Query}
    (recovers : r.Recovers q) : r = q := by
  induction q using nestedInduction generalizing r with
  | level q ihListed ihSlotted =>
    have tables (d) (member : d ∈ q.directSubqueries) (found : FromItem)
        (recovers : found.Recovers (.subquery d)) : found = .subquery d := by
      have listed : d ∈ q.listed := by
        obtain ⟨item, inList, inItem⟩ := List.mem_flatMap.mp member
        exact List.mem_flatMap.mpr ⟨item, inList, FromItem.listed_of_derived inItem⟩
      have inside (free : d.isCorrelated = false) {r : Query} (recovers : r.Recovers d) : r = d :=
        ihListed d listed (named.table member free) recovers
      cases recovers with
      | correlated => rfl
      | searched free _ recovers => rw [inside free recovers]
      | @named _ r name free _ own recovers =>
        have renamed : ({ r with asName := some name } : Query).Recovers { d with asName := some name } :=
          recovers.rename (some name)
        rw [rename_self own] at renamed
        rw [inside free renamed]
      | drawn name free aggregates none => exact absurd none (named.1.table d member free aggregates)
    have slots (slot) (member : slot ∈ q.filter.toList.flatMap Expr.slots) (found : Query)
        (recovers : Query.RecoversSlot found slot.2) : found = slot.2 := by
      have slotted : slot.2 ∈ q.slotted := by
        obtain ⟨e, own, inSlots⟩ := List.mem_flatMap.mp member
        refine mem_slotted.mpr ⟨e, ?_, slot, inSlots, rfl⟩
        simp only [exprs, List.mem_append]
        exact .inl (.inl (.inl (.inr own)))
      have inside (free : slot.2.isCorrelated = false) {r : Query} (recovers : r.Recovers slot.2) :
          r = slot.2 := ihSlotted slot.2 slotted (named.slot member free) recovers
      cases recovers with
      | correlated => rfl
      | searched free _ recovers => exact inside free recovers
      | unnamed free aggregates recovers =>
        rw [rename_self (named.1.slot slot member free aggregates)] at recovers
        exact inside free recovers
    cases recovers with
    | level items filter =>
      rw [FromItem.eq_of_recoversIn tables items]
      cases filter with
      | none => rfl
      | some recovers =>
        rw [Expr.eq_of_recovers _ (fun slot member => slots slot (List.mem_append_left _ member)) _ recovers]

end Recovering

end ApproxQuery
