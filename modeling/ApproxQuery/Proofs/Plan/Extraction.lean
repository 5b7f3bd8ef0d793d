import ApproxQuery.Proofs.Plan.Search

/-! Extraction is a search: by induction on the query, part by part. -/
namespace ApproxQuery.Plan

/-- An action searches a part of a query: the part it answers reads what it links to, and recovers
the original once its links are put back. -/
def Search {α : Type} (act : StateM Plan (α × List Link)) (reads : α → List PlaceholderRef)
    (cuts : List Query)
    (recovers : (NodeId → Option Query) → (NodeId → Option Query) → α → Prop) : Prop :=
  ∀ p tops, p.Sound tops → p.Fresh →
    Searched tops p (act p).2 (act p).1.2 cuts
      ∧ (reads (act p).1.1).Perm ((act p).1.2.map Link.ref)
      ∧ ∀ p'' tables slots, (act p).2.Extends p'' → Puts p'' tables slots (act p).1.2 →
        recovers tables slots (act p).1.1

namespace Search

variable {α β γ : Type} {reads : α → List PlaceholderRef} {more : β → List PlaceholderRef}
  {all : γ → List PlaceholderRef} {cuts others : List Query}
  {recovers : (NodeId → Option Query) → (NodeId → Option Query) → α → Prop}
  {recoversMore : (NodeId → Option Query) → (NodeId → Option Query) → β → Prop}
  {recoversAll : (NodeId → Option Query) → (NodeId → Option Query) → γ → Prop}

/-- A part without nodes. -/
theorem none {a : α} (closed : reads a = []) (same : ∀ tables slots, recovers tables slots a) :
    Search (pure (a, [])) reads [] recovers := by
  intro p tops sound fresh
  refine ⟨Searched.of_draw sound fresh (Nat.le_refl _) (Nat.le_refl _), ?_, ?_⟩
  · exact closed ▸ List.Perm.refl _
  · exact fun _ tables slots _ _ => same tables slots

/-- A part around another. -/
theorem map {act : StateM Plan (α × List Link)} (search : Search act reads cuts recovers)
    (around : α → γ) (same : ∀ a, (all (around a)).Perm (reads a))
    (whole : ∀ tables slots a, recovers tables slots a → recoversAll tables slots (around a)) :
    Search (do let (a, links) ← act; return (around a, links)) all cuts recoversAll := by
  intro p tops sound fresh
  obtain ⟨searched, placed, recovered⟩ := search p tops sound fresh
  refine ⟨searched, (same _).trans placed, ?_⟩
  exact fun p'' tables slots later puts => whole tables slots _ (recovered p'' tables slots later puts)

variable (all recoversAll) in
/-- Two parts, one after the other. -/
theorem both {first : StateM Plan (α × List Link)} {second : StateM Plan (β × List Link)}
    (left : Search first reads cuts recovers) (right : Search second more others recoversMore)
    (join : α → β → γ) (same : ∀ a b, (all (join a b)).Perm (reads a ++ more b))
    (whole : ∀ tables slots a b, recovers tables slots a → recoversMore tables slots b →
      recoversAll tables slots (join a b)) :
    Search (do
      let (a, links) ← first
      let (b, rest) ← second
      return (join a b, links ++ rest)) all (cuts ++ others) recoversAll := by
  intro p tops sound fresh
  obtain ⟨searched, placed, recovered⟩ := left p tops sound fresh
  obtain ⟨searched', placed', recovered'⟩ := right _ _ searched.sound searched.fresh
  refine ⟨searched.append searched', ?_, ?_⟩
  · refine (same _ _).trans ((placed.append placed').trans ?_)
    rw [← List.map_append]
    exact List.Perm.refl _
  · intro p'' tables slots later puts
    refine whole tables slots _ _ ?_ ?_
    · exact recovered p'' tables slots (Extends.trans (searched'.grown.keeps searched.fresh) later)
        fun link member => puts link (List.mem_append_left _ member)
    · exact recovered' p'' tables slots later fun link member => puts link (List.mem_append_right _ member)

end Search

/-- A level recovers the original, and reads nothing in its from-list that is put back in slots. -/
def LevelRecovers (q : Query) (tables slots : NodeId → Option Query) (level : Query) : Prop :=
  (level.graft tables slots).Recovers q ∧ ∀ ref ∈ level.directPlaceholders, slots ref.node = none

/-- The same of a from-list item. -/
def ItemRecovers (item : FromItem) (tables slots : NodeId → Option Query) (found : FromItem) : Prop :=
  (found.graft tables slots).Recovers item ∧ ∀ ref ∈ found.directPlaceholders, slots ref.node = none

/-- The query in a slot recovers the original. -/
def SlotRecovers (q : Query) (tables slots : NodeId → Option Query) (slot : Query) : Prop :=
  Query.RecoversSlot (slot.graftSlot tables slots) q

/-- An expression recovers the original. -/
def ExprRecovers (e : Expr) (tables slots : NodeId → Option Query) (found : Expr) : Prop :=
  Expr.Recovers (found.mapSlots (Query.graftSlot tables slots)) e

/-- The search of a level, which goes on aggregating or not as it did. -/
structure LevelSearch (q : Query) (extract : StateM Plan (Query × List Link)) : Prop where
  search : Search extract Query.placeholders q.cuts (LevelRecovers q)
  aggregates : ∀ p, (extract p).1.1.isAggregateLevel = q.isAggregateLevel

namespace LevelSearch

variable {q : Query} {extract : StateM Plan (Query × List Link)}

private def cutOut (q : Query) (extract : StateM Plan (Query × List Link)) : StateM Plan OpenNode := do
  let start ← openNode q
  let (level, links) ← extract
  closeNode start { level with asName := none } links
  return start

private theorem cutOut_spec (level : LevelSearch q extract) (aggregates : q.isAggregateLevel = true)
    {p : Plan} {tops : List NodeId} (sound : p.Sound tops) (fresh : p.Fresh) (link : Link)
    (own : link.node = ⟨p.nextNode⟩) (table : link.ref.table = p.numberedTable p.identifiers) :
    (cutOut q extract p).1 = p.opened q
      ∧ Searched tops p (cutOut q extract p).2 [link] (q :: q.cuts) := by
  obtain ⟨searched, placed, recovered⟩ := level.search p.afterOpening tops
    (sound.of_nodes rfl) (fresh_afterOpening fresh)
  have recovered' (p'' tables slots) (later : (extract p.afterOpening).2.Extends p'')
      (puts : Puts p'' tables slots (extract p.afterOpening).1.2) :=
    (recovered p'' tables slots later puts).1
  exact ⟨rfl, Searched.close sound fresh searched placed recovered' aggregates (level.aggregates _)
    own table⟩

private theorem head_recovers {tops : List NodeId} {p p' p'' : Plan} {links : List Link}
    (searched : Searched tops p p' links (q :: q.cuts)) (later : p'.Extends p'') {r : Query}
    (restores : p''.Restores ⟨p.nextNode⟩ r) : r.Recovers { q with asName := none } := by
  have cut := searched.cut
  rw [List.length_cons, List.range'_succ] at cut
  cases cut with
  | cons first _ => exact first.2 p'' r later restores

private theorem table_recovers {tops : List NodeId} {p p' p'' : Plan} (ref : PlaceholderRef)
    {tables slots : NodeId → Option Query}
    (searched : Searched tops p p' [.table ref] (q :: q.cuts)) (own : ref.node = ⟨p.nextNode⟩)
    (later : p'.Extends p'') (puts : Puts p'' tables slots [.table ref]) :
    ∃ r : Query, (FromItem.placeholder ref).graft tables slots
        = .subquery { r with asName := some ref.asName }
      ∧ slots ref.node = none ∧ r.Recovers { q with asName := none } := by
  obtain ⟨r, restores, inTables, notInSlots⟩ := puts _ List.mem_cons_self
  refine ⟨r, ?_, notInSlots, head_recovers searched later (own ▸ restores)⟩
  rw [FromItem.graft_placeholder, inTables]

private theorem takeTable_cut (level : LevelSearch q extract) (correlated : q.isCorrelated = false)
    (aggregates : q.isAggregateLevel = true) :
    Search (do
      let asName ← match q.asName with
        | some asName => pure asName
        | none => drawAlias
      let start ← openNode q
      let (level, links) ← extract
      closeNode start { level with asName := none } links
      let ref := ⟨start.id, start.scratch, asName⟩
      return (FromItem.placeholder ref, [Link.table ref])) FromItem.placeholders (q :: q.cuts)
      (ItemRecovers (.subquery q)) := by
  intro p tops sound fresh
  cases own : q.asName with
  | some name =>
    let ref : PlaceholderRef := ⟨⟨p.nextNode⟩, p.numberedTable p.identifiers, name⟩
    have searched := (cutOut_spec level aggregates sound fresh (.table ref) rfl rfl).2
    refine ⟨searched, List.Perm.refl _, ?_⟩
    intro p'' tables slots later puts
    obtain ⟨r, grafted, apart, recovered⟩ := table_recovers ref searched rfl later puts
    refine ⟨Eq.mpr (congrArg (FromItem.Recovers · _) grafted) ?_, ?_⟩
    · exact .named correlated aggregates own recovered
    · exact fun other member => List.mem_singleton.mp member ▸ apart
  | none =>
    let p₀ : Plan := { p with identifiers := p.identifiers + 1 }
    let ref : PlaceholderRef := ⟨⟨p.nextNode⟩, p₀.numberedTable p₀.identifiers,
      "aqpalias_" ++ (p.tag ++ "_" ++ Decimal.digitText p.identifiers)⟩
    have drawn : Searched tops p p₀ [] [] :=
      Searched.of_draw sound fresh (Nat.le_refl _) (Nat.le_succ _)
    have searched := (cutOut_spec level aggregates drawn.sound drawn.fresh (.table ref) rfl rfl).2
    refine ⟨drawn.append searched, List.Perm.refl _, ?_⟩
    intro p'' tables slots later puts
    obtain ⟨r, grafted, apart, recovered⟩ := table_recovers ref searched rfl later puts
    refine ⟨Eq.mpr (congrArg (FromItem.Recovers · _) grafted) ?_, ?_⟩
    · exact .drawn _ correlated aggregates own recovered
    · exact fun other member => List.mem_singleton.mp member ▸ apart

/-- Deciding about a derived table is a search, given that of its level. -/
theorem takeTable (level : LevelSearch q extract) (closed : q.placeholders = []) :
    Search (Plan.takeTable q extract) FromItem.placeholders (FromItem.subquery q).cuts
      (ItemRecovers (.subquery q)) := by
  unfold Plan.takeTable FromItem.cuts
  cases correlated : q.isCorrelated with
  | true =>
    refine Search.none closed fun tables slots => ⟨?_, fun other member => by cases member⟩
    rw [FromItem.graft_subquery, Query.graft_of_placeholders_eq_nil closed]
    exact .correlated correlated
  | false =>
    cases aggregates : q.isAggregateLevel with
    | false =>
      refine level.search.map FromItem.subquery (fun level => List.Perm.refl _) ?_
      intro tables slots level recovered
      refine ⟨?_, fun other member => by cases member⟩
      rw [FromItem.graft_subquery]
      exact .searched correlated aggregates recovered.1
    | true => exact level.takeTable_cut correlated aggregates

/-- What is cut out of the query of a slot. -/
private def slotCuts (q : Query) : List Query :=
  if q.isCorrelated then [] else if q.isAggregateLevel then q :: q.cuts else q.cuts

/-- A level may be a marker once it was searched, but then its node is put back as a table. -/
private theorem graftSlot_of_level {tables slots : NodeId → Option Query} {level : Query}
    (recovered : LevelRecovers q tables slots level) :
    level.graftSlot tables slots = level.graft tables slots := by
  unfold Query.graftSlot
  cases marker : level.marker? with
  | none => rfl
  | some node =>
    obtain ⟨ref, asName, here, rfl⟩ := Query.marker?_eq_some.mp marker
    have unread := recovered.2 ref List.mem_cons_self
    rw [Option.bind_some, ← here, unread]

private theorem takeSlot_cut (level : LevelSearch q extract) (correlated : q.isCorrelated = false)
    (aggregates : q.isAggregateLevel = true) (kind : SubqueryKind) :
    Search (do
      let start ← openNode q
      let (level, links) ← extract
      closeNode start { level with asName := none } links
      let asName ← drawAlias
      let ref := ⟨start.id, start.scratch, asName⟩
      return (Query.selectAll (.placeholder ref), [Link.slot ⟨kind, ref⟩])) Query.placeholders
      (q :: q.cuts) (SlotRecovers q) := by
  intro p tops sound fresh
  let ref : PlaceholderRef := ⟨⟨p.nextNode⟩, p.numberedTable p.identifiers,
    "aqpalias_" ++ ((cutOut q extract p).2.tag ++ "_"
      ++ Decimal.digitText (cutOut q extract p).2.identifiers)⟩
  have searched := (cutOut_spec level aggregates sound fresh (.slot ⟨kind, ref⟩) rfl rfl).2
  have drawn := Searched.of_draw searched.sound searched.fresh (Nat.le_refl _) (Nat.le_succ _)
  refine ⟨List.append_nil (q :: q.cuts) ▸ searched.append drawn, List.Perm.refl _, ?_⟩
  intro p'' tables slots later puts
  obtain ⟨r, restores, inSlots⟩ := puts _ List.mem_cons_self
  have extended := Extends.trans (drawn.grown.keeps searched.fresh) later
  have recovered := head_recovers searched extended restores
  have grafted : (Query.selectAll (.placeholder ref)).graftSlot tables slots
      = { r with asName := none } := by
    have marker : (Query.selectAll (.placeholder ref)).marker? = some ref.node := rfl
    have here : slots ref.node = some r := inSlots
    rw [Query.graftSlot, marker, Option.bind_some, here]
  exact Eq.mpr (congrArg (Query.RecoversSlot · q) grafted)
    (.unnamed correlated aggregates (recovered.rename none))

/-- Deciding about a slot is a search likewise. -/
theorem takeSlot (level : LevelSearch q extract) (closed : q.placeholders = [])
    (kind : SubqueryKind) :
    Search (Plan.takeSlot kind q extract) Query.placeholders (slotCuts q)
      (SlotRecovers q) := by
  unfold Plan.takeSlot slotCuts
  cases correlated : q.isCorrelated with
  | true =>
    refine Search.none closed fun tables slots => ?_
    rw [SlotRecovers, Query.graftSlot_of_placeholders_eq_nil closed]
    exact .correlated correlated
  | false =>
    cases aggregates : q.isAggregateLevel with
    | false =>
      have search : Search extract Query.placeholders q.cuts (SlotRecovers q) := by
        intro p tops sound fresh
        obtain ⟨searched, placed, recovered⟩ := level.search p tops sound fresh
        refine ⟨searched, placed, fun p'' tables slots later puts => ?_⟩
        have here := recovered p'' tables slots later puts
        rw [SlotRecovers, graftSlot_of_level here]
        exact .searched correlated aggregates here.1
      exact search
    | true => exact level.takeSlot_cut correlated aggregates kind

end LevelSearch

section Expressions

private theorem search_args {args : List Expr}
    (each : ∀ e ∈ args, Search e.extract Expr.placeholders e.cuts (ExprRecovers e)) :
    Search (Expr.extractIn args) (fun es => es.flatMap Expr.placeholders) (Expr.cutsIn args)
      fun tables slots es => Expr.RecoversIn (es.map (Expr.mapSlots (Query.graftSlot tables slots))) args := by
  induction args with
  | nil => exact Search.none rfl fun _ _ => .nil
  | cons e rest ih =>
    have first := each e List.mem_cons_self
    have later := ih fun e member => each e (List.mem_cons_of_mem _ member)
    refine Search.both _ _ first later List.cons (fun e es => List.Perm.refl _) ?_
    intro tables slots e' es recovers recoversRest
    exact .cons recovers recoversRest

/-- Searching an expression, given the searches of the levels in its slots. -/
theorem search_expr (e : Expr) (closed : e.placeholders = [])
    (levels : ∀ slot ∈ e.slots, slot.2.placeholders = [] → LevelSearch slot.2 slot.2.extract) :
    Search e.extract Expr.placeholders e.cuts (ExprRecovers e) := by
  revert closed levels
  refine ExprRule.expr (E := fun e => e.placeholders = [] →
    (∀ slot ∈ e.slots, slot.2.placeholders = [] → LevelSearch slot.2 slot.2.extract) →
    Search e.extract Expr.placeholders e.cuts (ExprRecovers e)) ?_ e
  constructor
  case column => exact fun table name _ _ => Search.none rfl fun _ _ => .column table name
  case literal => exact fun value _ _ => Search.none rfl fun _ _ => .literal value
  case star => exact fun table _ _ => Search.none rfl fun _ _ => .star table
  case func =>
    intro name args distinct ih closed levels
    rw [Expr.placeholders_func, List.flatMap_eq_nil_iff] at closed
    rw [Expr.slots, Expr.slotsIn_eq] at levels
    have search := search_args fun e member => ih e member (closed e member) fun slot inSlots =>
      levels slot (List.mem_flatMap.mpr ⟨e, member, inSlots⟩)
    refine search.map (Expr.func name · distinct) (fun es => ?_) ?_
    · rw [Expr.placeholders_func]
    · intro tables slots es recovers
      rw [ExprRecovers, Expr.mapSlots_func]
      exact .func name distinct recovers
  case binary =>
    intro op left right ihLeft ihRight closed levels
    rw [Expr.placeholders_binary, List.append_eq_nil_iff] at closed
    refine Search.both _ _ (ihLeft closed.1 fun slot member => levels slot (List.mem_append_left _ member))
      (ihRight closed.2 fun slot member => levels slot (List.mem_append_right _ member))
      (Expr.binary op) (fun left right => ?_) ?_
    · rw [Expr.placeholders_binary]
    · exact fun tables slots left' right' recoversLeft recoversRight =>
        .binary op recoversLeft recoversRight
  case not =>
    intro operand ih closed levels
    exact (ih closed levels).map Expr.not (fun _ => List.Perm.refl _)
      fun tables slots operand' recovers => .not recovers
  case isNull =>
    intro operand negated ih closed levels
    exact (ih closed levels).map (Expr.isNull · negated) (fun _ => List.Perm.refl _)
      fun tables slots operand' recovers => .isNull negated recovers
  case subquery =>
    intro query closed levels
    rw [Expr.placeholders_subquery] at closed
    refine ((levels _ List.mem_cons_self closed).takeSlot closed .scalar).map Expr.subquery
      (fun query => ?_) ?_
    · rw [Expr.placeholders_subquery]
    · exact fun tables slots query' recovers => .subquery recovers
  case inSubquery =>
    intro operand query negated ih closed levels
    rw [Expr.placeholders_inSubquery, List.append_eq_nil_iff] at closed
    have own : (SubqueryKind.membership, query) ∈ (Expr.inSubquery operand query negated).slots :=
      List.mem_append_right _ List.mem_cons_self
    refine Search.both _ _ (ih closed.1 fun slot member => levels slot (List.mem_append_left _ member))
      ((levels _ own closed.2).takeSlot closed.2 .membership) (Expr.inSubquery · · negated)
      (fun operand query => ?_) ?_
    · rw [Expr.placeholders_inSubquery]
    · exact fun tables slots operand' query' recovers recoversSlot =>
        .inSubquery negated recovers recoversSlot
  case existsSubquery =>
    intro query negated closed levels
    rw [Expr.placeholders_existsSubquery] at closed
    refine ((levels _ List.mem_cons_self closed).takeSlot closed .existence).map
      (Expr.existsSubquery · negated) (fun query => ?_) ?_
    · rw [Expr.placeholders_existsSubquery]
    · exact fun tables slots query' recovers => .existsSubquery negated recovers

end Expressions

section Levels

private theorem search_items {items : List FromItem}
    (each : ∀ item ∈ items, Search item.extract FromItem.placeholders item.cuts (ItemRecovers item)) :
    Search (FromItem.extractIn items) (fun found => found.flatMap FromItem.placeholders)
      (FromItem.cutsIn items) fun tables slots found =>
        FromItem.RecoversIn (found.map (FromItem.graft tables slots)) items
          ∧ ∀ ref ∈ found.flatMap FromItem.directPlaceholders, slots ref.node = none := by
  induction items with
  | nil => exact Search.none rfl fun _ _ => ⟨.nil, fun _ member => nomatch member⟩
  | cons item rest ih =>
    have first := each item List.mem_cons_self
    have later := ih fun item member => each item (List.mem_cons_of_mem _ member)
    refine Search.both _ _ first later List.cons (fun item found => List.Perm.refl _) ?_
    intro tables slots item' found recovers recoversRest
    refine ⟨.cons recovers.1 recoversRest.1, fun ref member => ?_⟩
    rcases List.mem_append.mp member with own | below
    · exact recovers.2 ref own
    · exact recoversRest.2 ref below

private theorem search_filter {filter : Option Expr}
    (each : ∀ e, filter = some e → Search e.extract Expr.placeholders e.cuts (ExprRecovers e)) :
    Search (match filter with
      | some e => do
        let (e, slots) ← e.extract
        pure (some e, slots)
      | none => pure (none, [])) (fun found => found.toList.flatMap Expr.placeholders)
      ((filter.map Expr.cuts).getD []) fun tables slots found =>
        Expr.RecoversFilter (found.map (Expr.mapSlots (Query.graftSlot tables slots))) filter := by
  cases filter with
  | none => exact Search.none rfl fun _ _ => .none
  | some e =>
    refine (each e rfl).map some (fun e => ?_) fun tables slots e' recovers => .some recovers
    rw [Option.toList_some, List.flatMap_singleton]

/-- A level whose from-list and filter were searched reads what they read, all else being closed. -/
private theorem placeholders_searched {selectList : List SelectItem} {groupBy : List Expr}
    {having : Option Expr} {orderBy : List OrderItem} {limit : Option UInt64}
    {asName : Option String}
    (closed : ∀ e ∈ selectList.map SelectItem.expr ++ groupBy ++ having.toList
      ++ orderBy.map OrderItem.expr, e.placeholders = [])
    (fromList : List FromItem) (filter : Option Expr) :
    (Query.mk selectList fromList filter groupBy having orderBy limit asName).placeholders.Perm
      (fromList.flatMap FromItem.placeholders ++ filter.toList.flatMap Expr.placeholders) := by
  refine (Query.placeholders_perm _).trans (List.Perm.append_left _ ?_)
  simp only [List.mem_append, or_imp, forall_and] at closed
  obtain ⟨⟨⟨inSelect, inGroup⟩, inHaving⟩, inOrder⟩ := closed
  have select := List.flatMap_eq_nil_iff.mpr inSelect
  have group := List.flatMap_eq_nil_iff.mpr inGroup
  have having' := List.flatMap_eq_nil_iff.mpr inHaving
  have order := List.flatMap_eq_nil_iff.mpr inOrder
  simp only [Query.exprs, List.flatMap_append, select, group, having', order, List.nil_append,
    List.append_nil]
  exact List.Perm.refl _

theorem mapSlots_of_closed {tables slots : NodeId → Option Query} {e : Expr}
    (closed : e.placeholders = []) : e.mapSlots (Query.graftSlot tables slots) = e := by
  refine Expr.mapSlots_eq_self fun slot member => Query.graftSlot_of_placeholders_eq_nil ?_
  exact List.flatMap_eq_nil_iff.mp closed slot member

/-- Grafting such a level acts on its from-list and its filter. -/
theorem graft_searched {selectList : List SelectItem} {groupBy : List Expr}
    {having : Option Expr} {orderBy : List OrderItem} {limit : Option UInt64}
    {asName : Option String}
    (closed : ∀ e ∈ selectList.map SelectItem.expr ++ groupBy ++ having.toList
      ++ orderBy.map OrderItem.expr, e.placeholders = [])
    (tables slots : NodeId → Option Query) (fromList : List FromItem) (filter : Option Expr) :
    (Query.mk selectList fromList filter groupBy having orderBy limit asName).graft tables slots
      = ⟨selectList, fromList.map (FromItem.graft tables slots),
        filter.map (Expr.mapSlots (Query.graftSlot tables slots)), groupBy, having, orderBy, limit,
        asName⟩ := by
  have rest : (Query.mk selectList [] none groupBy having orderBy limit asName).mapParts
      (FromItem.graft tables slots) (Expr.mapSlots (Query.graftSlot tables slots))
      = ⟨selectList, [], none, groupBy, having, orderBy, limit, asName⟩ := Query.mapParts_eq_self
    (fun _ member => nomatch member) fun e member => mapSlots_of_closed (closed e (by
      simpa [Query.exprs] using member))
  simp only [Query.mapParts, Query.mk.injEq] at rest
  obtain ⟨select, -, -, group, having', order, -⟩ := rest
  rw [Query.graft_eq]
  simp only [Query.mapParts, select, group, having', order]

private theorem aggregates_extract (q : Query) (p : Plan) :
    (q.extract p).1.1.isAggregateLevel = q.isAggregateLevel := by
  rcases q with ⟨selectList, fromList, filter, groupBy, having, orderBy, limit, asName⟩
  cases filter <;> rfl

private theorem levelSearch_level {q : Query} (closed : q.placeholders = [])
    (items : ∀ item ∈ q.fromList, item.placeholders = [] →
      Search item.extract FromItem.placeholders item.cuts (ItemRecovers item))
    (levels : ∀ e ∈ q.exprs, ∀ slot ∈ e.slots, slot.2.placeholders = [] →
      LevelSearch slot.2 slot.2.extract) : LevelSearch q q.extract := by
  refine ⟨?_, aggregates_extract q⟩
  have parts := (closed ▸ q.placeholders_perm).symm.eq_nil
  rw [List.append_eq_nil_iff, List.flatMap_eq_nil_iff, List.flatMap_eq_nil_iff] at parts
  obtain ⟨inItems, inExprs⟩ := parts
  rcases q with ⟨selectList, fromList, filter, groupBy, having, orderBy, limit, asName⟩
  have rest (e) (member : e ∈ selectList.map SelectItem.expr ++ groupBy ++ having.toList
      ++ orderBy.map OrderItem.expr) : e.placeholders = [] := by
    refine inExprs e ?_
    simp only [Query.exprs, List.mem_append] at member ⊢
    tauto
  have filtered (e) (same : filter = some e) : e ∈ (Query.mk selectList fromList filter groupBy
      having orderBy limit asName).exprs := by
    simp [Query.exprs, same]
  have search := Search.both Query.placeholders
    (LevelRecovers ⟨selectList, fromList, filter, groupBy, having, orderBy, limit, asName⟩)
    (search_items fun item member => items item member (inItems item member))
    (search_filter fun e same => search_expr e (inExprs e (filtered e same)) (levels e (filtered e same)))
    (fun fromList filter =>
      Query.mk selectList fromList filter groupBy having orderBy limit asName)
    (placeholders_searched rest)
    fun tables slots found filter' recovers recoversFilter => by
      refine ⟨?_, recovers.2⟩
      rw [graft_searched rest]
      exact .level recovers.1 recoversFilter
  cases filter <;> exact search

end Levels

/-- Extraction is a search, of every query and every from-list item without placeholders. -/
theorem search_extract : LevelRule (fun q => q.placeholders = [] → LevelSearch q q.extract)
    fun item => item.placeholders = [] →
      Search item.extract FromItem.placeholders item.cuts (ItemRecovers item) where
  level := fun _ items levels closed => levelSearch_level closed items levels
  table := fun t _ => Search.none rfl fun _ _ => ⟨.table t, fun _ member => nomatch member⟩
  derived := by
    intro q ih closed
    exact (ih closed).takeTable closed
  join := by
    intro left right kind on ihLeft ihRight _ closed
    have parts := (closed ▸ FromItem.placeholders_join_perm left right kind on).symm.eq_nil
    rw [List.append_eq_nil_iff, List.append_eq_nil_iff] at parts
    obtain ⟨⟨inLeft, inRight⟩, inOn⟩ := parts
    refine Search.both _ _ (ihLeft inLeft) (ihRight inRight) (FromItem.join · · kind on) ?_ ?_
    · intro left right
      refine (FromItem.placeholders_join_perm left right kind on).trans ?_
      rw [inOn, List.append_nil]
    · intro tables slots left' right' recoversLeft recoversRight
      have same : on.map (Expr.mapSlots (Query.graftSlot tables slots)) = on := by
        cases on with
        | none => rfl
        | some e =>
          have closed := List.flatMap_eq_nil_iff.mp inOn e List.mem_cons_self
          rw [Option.map_some, mapSlots_of_closed closed]
      refine ⟨?_, fun ref member => ?_⟩
      · rw [FromItem.graft_join, same]
        exact .join recoversLeft.1 recoversRight.1
      · exact (List.mem_append.mp member).elim (recoversLeft.2 ref) (recoversRight.2 ref)
  placeholder := fun ref closed => nomatch closed

end ApproxQuery.Plan
