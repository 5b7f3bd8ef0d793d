import ApproxQuery.Proofs.Plan.Decomposition
import ApproxQuery.Proofs.Query.Fillable
import ApproxQuery.Proofs.Query.Lookalike

/-! Where the nodes of a built plan stem from: each has the level of a query that was cut out, with
placeholders in place of its own cuts. Only lookalikes leave markers outside of slots, or make slots
of tables. -/
namespace ApproxQuery.Plan

/-- A dependent is on record as it is linked. -/
def OnRecord (n : Node) : Link → Prop
  | .table ref => ref.node ∈ n.dependents ∧ ∃ refs, n.tables.find? ref.node = some refs
  | .slot read => read.ref.node ∈ n.dependents ∧ ∃ reads, n.filters.find? read.ref.node = some reads

/-- Two ways of putting queries back that agree on what is linked. -/
structure Agree (links : List Link) (tables slots tables' slots' : NodeId → Option Query) : Prop where
  table : ∀ ref, .table ref ∈ links → tables ref.node = tables' ref.node
  slot : ∀ read, .slot read ∈ links →
    ∃ content, slots read.ref.node = some content ∧ slots' read.ref.node = some content

/-- Putting queries back makes the same of something when it agrees on the links. -/
def Fixes {α : Type} (links : List Link)
    (result : (NodeId → Option Query) → (NodeId → Option Query) → α) : Prop :=
  ∀ {tables slots tables' slots'}, Agree links tables slots tables' slots' →
    result tables slots = result tables' slots'

section Agreeing

variable {links more : List Link} {tables slots tables' slots' : NodeId → Option Query}

theorem Agree.left (agree : Agree (links ++ more) tables slots tables' slots') :
    Agree links tables slots tables' slots' where
  table := fun ref member => agree.table ref (List.mem_append_left _ member)
  slot := fun read member => agree.slot read (List.mem_append_left _ member)

theorem Agree.right (agree : Agree (links ++ more) tables slots tables' slots') :
    Agree more tables slots tables' slots' where
  table := fun ref member => agree.table ref (List.mem_append_right _ member)
  slot := fun read member => agree.slot read (List.mem_append_right _ member)

end Agreeing

/-- What is shown of a sub-query only if it is entered. -/
def Entered (P : Query → Prop) (q : Query) : Prop := q.isCorrelated = false → q.Throughout P

/-- What the search of a level leaves of it. -/
structure LevelLike (q level : Query) (links : List Link) : Prop where
  lookalike : level.marker? ≠ none → q.isLookalike = true
  clear : q.Throughout Query.TablesPlain → level.MarkersInSlots
  fixed : q.Throughout Query.SlotsPlain → Fixes links fun tables slots => level.graft tables slots

/-- What it leaves of from-list items. -/
structure ItemsLike (items found : List FromItem) (links : List Link) : Prop where
  length : found.length = items.length
  placeholder : ∀ ref, found = [.placeholder ref] →
    ∃ d, items = [.subquery d] ∧ d.isAggregateLevel = true ∧ d.isCorrelated = false
  fillable : (∀ d ∈ items.flatMap FromItem.directSubqueries,
      d.isLookalike = false ∧ Entered Query.TablesPlain d) →
    ∀ sub ∈ found.flatMap FromItem.listed, sub.Fillable
  fixed : (∀ d ∈ items.flatMap FromItem.directSubqueries, Entered Query.SlotsPlain d) →
    Fixes links fun tables slots => found.map (FromItem.graft tables slots)

/-- What it leaves in the slots of expressions. -/
structure SlotsLike (before after : List (SubqueryKind × Query)) (links : List Link) : Prop where
  clear : (∀ slot ∈ before, Entered Query.TablesPlain slot.2) → ∀ slot ∈ after, slot.2.MarkersInSlots
  fixed : (∀ slot ∈ before, slot.2.isLookalike = false ∧ Entered Query.SlotsPlain slot.2) →
    ∀ slot ∈ after, Fixes links fun tables slots => slot.2.graftSlot tables slots

/-- A node with the level of a query that was cut out. -/
structure Stems (q : Query) (n : Node) : Prop where
  kind : n.kind = if q.isAggregateLevel then .aggregate else .projection
  level : ∃ level links asName, LevelLike q level links ∧ n.query = { level with asName }
    ∧ ∀ link ∈ links, OnRecord n link

/-- Every node was there before, up to the ends of its edges, or stems from one of the cuts. -/
def Descends (cuts : List Query) (p p' : Plan) : Prop :=
  ∀ id n, p'.node? id = some n →
    (∃ m parents broadcasts, p.node? id = some m ∧ n = { m with parents, broadcasts })
      ∨ ∃ cut ∈ cuts, Stems cut n

/-- What an action answers, and where its nodes stem from. -/
def Traces {α : Type} (cuts : List Query) (act : StateM Plan (α × List Link))
    (like : α → List Link → Prop) : Prop :=
  ∀ p, like (act p).1.1 (act p).1.2 ∧ Descends cuts p (act p).2

section Combining

variable {p p' p'' : Plan} {cuts others : List Query}

theorem Descends.refl (p : Plan) : Descends [] p p := by
  intro id n found
  exact .inl ⟨n, n.parents, n.broadcasts, found, rfl⟩

theorem Stems.ends {q : Query} {n : Node} (stems : Stems q n) (parents : List NodeId)
    (broadcasts : List QueueId) : Stems q { n with parents, broadcasts } :=
  ⟨stems.kind, stems.level⟩

theorem Descends.trans (first : Descends cuts p p') (second : Descends others p' p'') :
    Descends (cuts ++ others) p p'' := by
  intro id n found
  rcases second id n found with ⟨m, parents, broadcasts, there, rfl⟩ | ⟨cut, member, stems⟩
  · rcases first id m there with ⟨m', _, _, there', rfl⟩ | ⟨cut, member, stems⟩
    · exact .inl ⟨m', parents, broadcasts, there', rfl⟩
    · exact .inr ⟨cut, List.mem_append_left _ member, stems.ends parents broadcasts⟩
  · exact .inr ⟨cut, List.mem_append_right _ member, stems⟩

namespace Traces

variable {α β γ : Type} {likeA : α → List Link → Prop} {likeB : β → List Link → Prop}
  {like : γ → List Link → Prop}

theorem none {a : α} (same : likeA a []) : Traces [] (pure (a, [])) likeA :=
  fun p => ⟨same, Descends.refl p⟩

theorem map {act : StateM Plan (α × List Link)} (traces : Traces cuts act likeA) (around : α → γ)
    (whole : ∀ a links, likeA a links → like (around a) links) :
    Traces cuts (do let (a, links) ← act; return (around a, links)) like :=
  fun p => ⟨whole _ _ (traces p).1, (traces p).2⟩

variable (like) in
theorem both {first : StateM Plan (α × List Link)} {second : StateM Plan (β × List Link)}
    (left : Traces cuts first likeA) (right : Traces others second likeB) (join : α → β → γ)
    (whole : ∀ a links b more, likeA a links → likeB b more → like (join a b) (links ++ more)) :
    Traces (cuts ++ others) (do
      let (a, links) ← first
      let (b, more) ← second
      return (join a b, links ++ more)) like :=
  fun p => ⟨whole _ _ _ _ (left p).1 (right _).1, (left p).2.trans (right _).2⟩

end Traces

end Combining

section Closing

variable {n : Node} {p : Plan}

private theorem onRecord_addLink (n : Node) (link : Link) : OnRecord (addLink n link) link := by
  cases link with
  | table ref =>
    refine ⟨Node.mem_addOnce.mpr (.inr rfl), ?_⟩
    exact ⟨_, (AscendingMap.find?_append _ _ _ _).trans (if_pos rfl)⟩
  | slot read =>
    refine ⟨Node.mem_addOnce.mpr (.inr rfl), ?_⟩
    exact ⟨_, (AscendingMap.find?_append _ _ _ _).trans (if_pos rfl)⟩

private theorem find?_append_some {α : Type} {m : AscendingMap NodeId (List α)} {id : NodeId}
    {values : List α} (found : m.find? id = some values) (key : NodeId) (more : List α) :
    ∃ values, (m.append key more).find? id = some values := by
  rw [AscendingMap.find?_append]
  split
  · exact ⟨_, rfl⟩
  · exact ⟨values, found⟩

private theorem OnRecord.addLink {other : Link} (records : OnRecord n other) (link : Link) :
    OnRecord (addLink n link) other := by
  cases other with
  | table ref =>
    obtain ⟨dependent, refs, found⟩ := records
    refine ⟨?_, ?_⟩
    · cases link <;> exact Node.mem_addOnce.mpr (.inl dependent)
    · cases link with
      | table own => exact find?_append_some found own.node [own]
      | slot own => exact ⟨refs, found⟩
  | slot read =>
    obtain ⟨dependent, reads, found⟩ := records
    refine ⟨?_, ?_⟩
    · cases link <;> exact Node.mem_addOnce.mpr (.inl dependent)
    · cases link with
      | table own => exact ⟨reads, found⟩
      | slot own => exact find?_append_some found own.ref.node [own]

/-- Recording links one after the other changes no more than the records. -/
private theorem foldl_addLink_cases (links : List Link) (n : Node) :
    (links.foldl addLink n).kind = n.kind ∧ (links.foldl addLink n).query = n.query
      ∧ ∀ link, OnRecord n link ∨ link ∈ links → OnRecord (links.foldl addLink n) link := by
  induction links generalizing n with
  | nil => exact ⟨rfl, rfl, fun link old => old.resolve_right List.not_mem_nil⟩
  | cons first rest ih =>
    obtain ⟨kind, query, records⟩ := ih (addLink n first)
    rw [List.foldl_cons]
    refine ⟨kind.trans ?_, query.trans ?_, fun link known => records link ?_⟩
    · cases first <;> rfl
    · cases first <;> rfl
    · rcases known with old | member
      · exact .inl (old.addLink first)
      · rcases List.mem_cons.mp member with rfl | later
        · exact .inl (onRecord_addLink n link)
        · exact .inr later

private theorem foldl_modifyNode_origin (links : List Link) (change : Node → Node)
    (ends : ∀ n, ∃ parents broadcasts, change n = { n with parents, broadcasts }) {p : Plan} {id : NodeId}
    (found : (links.foldl (fun p link => p.modifyNode link.node change) p).node? id = some n) :
    ∃ m parents broadcasts, p.node? id = some m ∧ n = { m with parents, broadcasts } := by
  induction links generalizing p with
  | nil => exact ⟨n, n.parents, n.broadcasts, found, rfl⟩
  | cons link rest ih =>
    obtain ⟨m, parents, broadcasts, there, rfl⟩ := ih found
    rw [node?_modifyNode] at there
    split at there
    · obtain ⟨m', there', rfl⟩ := Option.map_eq_some_iff.mp there
      obtain ⟨parents', broadcasts', same⟩ := ends m'
      rw [same]
      exact ⟨m', parents, broadcasts, there', rfl⟩
    · exact ⟨m, parents, broadcasts, there, rfl⟩

/-- A node after a closing was there before, or is the closed one. -/
theorem closeNode_origin (start : OpenNode) (q : Query) (links : List Link) {id : NodeId}
    (found : (closeNode start q links p).2.node? id = some n) :
    (∃ m parents broadcasts, p.node? id = some m ∧ n = { m with parents, broadcasts })
      ∨ n.kind = start.kind ∧ n.query = q ∧ ∀ link ∈ links, OnRecord n link := by
  cases links with
  | nil =>
    have look : (p.insertNode (Node.new start.id start.kind q start.scratch)).node? id = some n := found
    rw [node?_insertNode] at look
    split at look
    · cases look
      exact .inr ⟨rfl, rfl, fun _ member => nomatch member⟩
    · exact .inl ⟨n, n.parents, n.broadcasts, look, rfl⟩
  | cons first rest =>
    let queue : QueueId := ⟨p.nextQueue⟩
    let own : Node := (first :: rest).foldl addLink
      ((Node.new start.id start.kind q start.scratch).addListening queue)
    let signal (child : Node) : Node := (child.addParent start.id).addBroadcast queue
    let drawn : Plan := { p with nextQueue := p.nextQueue + 1 }
    let adopted : Plan := (first :: rest).foldl (fun p link => p.modifyNode link.node signal) drawn
    have look : (adopted.insertNode own).node? id = some n := found
    rw [node?_insertNode] at look
    split at look
    · obtain ⟨kind, query, records⟩ := foldl_addLink_cases (first :: rest)
        ((Node.new start.id start.kind q start.scratch).addListening queue)
      have same : own = n := Option.some.inj look
      exact .inr (same ▸ ⟨kind, query, fun link member => records link (.inr member)⟩)
    · exact .inl (foldl_modifyNode_origin (p := drawn) (first :: rest) signal (fun child => ⟨_, _, rfl⟩) look)

end Closing

section Deciding

variable {q : Query} {extract : StateM Plan (Query × List Link)}

private def cutOut (q : Query) (extract : StateM Plan (Query × List Link)) : StateM Plan OpenNode := do
  let start ← openNode q
  let (level, links) ← extract
  closeNode start { level with asName := none } links
  return start

private theorem descends_cutOut (level : Traces q.cuts extract (LevelLike q)) (p : Plan) :
    Descends (q :: q.cuts) p (cutOut q extract p).2 := by
  obtain ⟨like, descends⟩ := level p.afterOpening
  intro id n found
  rcases closeNode_origin (p.opened q) { (extract p.afterOpening).1.1 with asName := none }
      (extract p.afterOpening).1.2 found with ⟨m, parents, broadcasts, there, rfl⟩ | ⟨kind, query, records⟩
  · rcases descends id m there with ⟨m', _, _, there', rfl⟩ | ⟨cut, member, stems⟩
    · exact .inl ⟨m', parents, broadcasts, there', rfl⟩
    · exact .inr ⟨cut, List.mem_cons_of_mem _ member, stems.ends parents broadcasts⟩
  · exact .inr ⟨q, List.mem_cons_self, kind, _, _, none, like, query, records⟩

private theorem unmarked_of_like {level : Query} {links : List Link} (like : LevelLike q level links)
    (unlike : q.isLookalike = false) : level.marker? = none := by
  by_contra marker
  have lookalike := like.lookalike marker
  rw [unlike] at lookalike
  cases lookalike

private theorem fillable_of_like {level : Query} {links : List Link} (like : LevelLike q level links)
    (plain : q.Throughout Query.TablesPlain) (unlike : q.isLookalike = false) : level.Fillable where
  unmarked := unmarked_of_like like unlike
  markersInSlots := like.clear plain

private theorem itemsLike_closed (closed : q.placeholders = []) :
    ItemsLike [.subquery q] [.subquery q] [] where
  length := rfl
  placeholder := fun _ same => nomatch same
  fillable := by
    intro _ sub member
    rw [List.mem_singleton.mp member]
    exact .of_closed closed
  fixed := by
    intro _ tables slots tables' slots' _
    simp only [List.map_cons, List.map_nil, FromItem.graft_subquery,
      Query.graft_of_placeholders_eq_nil closed]

private theorem itemsLike_level {level : Query} {links : List Link} (like : LevelLike q level links)
    (free : q.isCorrelated = false) : ItemsLike [.subquery q] [.subquery level] links where
  length := rfl
  placeholder := fun _ same => nomatch same
  fillable := by
    intro plain sub member
    obtain ⟨unlike, entered⟩ := plain q List.mem_cons_self
    rw [List.mem_singleton.mp member]
    exact fillable_of_like like (entered free) unlike
  fixed := by
    intro plain tables slots tables' slots' agree
    have same := like.fixed (plain q List.mem_cons_self free) agree
    simp only [List.map_cons, List.map_nil, FromItem.graft_subquery, same]

private theorem itemsLike_placeholder (free : q.isCorrelated = false)
    (aggregates : q.isAggregateLevel = true) (ref : PlaceholderRef) :
    ItemsLike [.subquery q] [.placeholder ref] [.table ref] where
  length := rfl
  placeholder := fun _ _ => ⟨q, rfl, aggregates, free⟩
  fillable := fun _ _ member => nomatch member
  fixed := by
    intro _ tables slots tables' slots' agree
    simp only [List.map_cons, List.map_nil, FromItem.graft_placeholder,
      agree.table ref List.mem_cons_self]

/-- Deciding about a derived table, given the search of its level. -/
private theorem traces_takeTable (level : Traces q.cuts extract (LevelLike q))
    (closed : q.placeholders = []) : Traces (FromItem.subquery q).cuts (takeTable q extract)
      fun found links => ItemsLike [.subquery q] [found] links := by
  unfold takeTable FromItem.cuts
  cases correlated : q.isCorrelated with
  | true => exact Traces.none (itemsLike_closed closed)
  | false =>
    cases aggregates : q.isAggregateLevel with
    | false => exact level.map FromItem.subquery fun found links like => itemsLike_level like correlated
    | true =>
      intro p
      cases own : q.asName with
      | some name => exact ⟨itemsLike_placeholder correlated aggregates _, descends_cutOut level p⟩
      | none =>
        let drawn : Plan := { p with identifiers := p.identifiers + 1 }
        have descends : Descends (q :: q.cuts) drawn (cutOut q extract drawn).2 :=
          descends_cutOut level drawn
        exact ⟨itemsLike_placeholder correlated aggregates _, descends⟩

private theorem slotsLike_closed (closed : q.placeholders = []) (kind : SubqueryKind) :
    SlotsLike [(kind, q)] [(kind, q)] [] where
  clear := by
    intro _ slot member
    rw [List.mem_singleton.mp member]
    exact (Query.Fillable.of_closed closed).markersInSlots
  fixed := by
    intro _ slot member tables slots tables' slots' _
    simp only [List.mem_singleton.mp member, Query.graftSlot_of_placeholders_eq_nil closed]

private theorem slotsLike_level {level : Query} {links : List Link} (like : LevelLike q level links)
    (free : q.isCorrelated = false) (kind : SubqueryKind) :
    SlotsLike [(kind, q)] [(kind, level)] links where
  clear := by
    intro plain slot member
    rw [List.mem_singleton.mp member]
    exact like.clear (plain _ List.mem_cons_self free)
  fixed := by
    intro plain slot member tables slots tables' slots' agree
    obtain ⟨unlike, entered⟩ := plain _ List.mem_cons_self
    have same := like.fixed (entered free) agree
    simp only [List.mem_singleton.mp member, Query.graftSlot, unmarked_of_like like unlike,
      Option.bind_none, same]

private theorem slotsLike_marker (ref : PlaceholderRef) (kind : SubqueryKind) :
    SlotsLike [(kind, q)] [(kind, Query.selectAll (.placeholder ref))] [.slot ⟨kind, ref⟩] where
  clear := by
    intro _ slot member
    have marker : (Query.selectAll (.placeholder ref)).marker? = some ref.node := rfl
    rw [List.mem_singleton.mp member]
    exact Query.markersInSlots_of_marker marker
  fixed := by
    intro _ slot member tables slots tables' slots' agree
    obtain ⟨content, here, here'⟩ := agree.slot _ List.mem_cons_self
    have marker : (Query.selectAll (.placeholder ref)).marker? = some ref.node := rfl
    simp only [List.mem_singleton.mp member, Query.graftSlot, marker, Option.bind_some, here, here']

/-- Deciding about a slot likewise. -/
private theorem traces_takeSlot (level : Traces q.cuts extract (LevelLike q))
    (closed : q.placeholders = []) (kind : SubqueryKind) : Traces q.cut (takeSlot kind q extract)
      fun found links => SlotsLike [(kind, q)] [(kind, found)] links := by
  unfold takeSlot Query.cut
  cases correlated : q.isCorrelated with
  | true => exact Traces.none (slotsLike_closed closed kind)
  | false =>
    cases aggregates : q.isAggregateLevel with
    | false => exact fun p => ⟨slotsLike_level (level p).1 correlated kind, (level p).2⟩
    | true => exact fun p => ⟨slotsLike_marker _ kind, descends_cutOut level p⟩

end Deciding

section Expressions

private theorem SlotsLike.nil : SlotsLike [] [] [] where
  clear := fun _ _ member => nomatch member
  fixed := fun _ _ member => nomatch member

private theorem SlotsLike.append {before before' after after' : List (SubqueryKind × Query)}
    {links more : List Link} (first : SlotsLike before after links)
    (second : SlotsLike before' after' more) :
    SlotsLike (before ++ before') (after ++ after') (links ++ more) where
  clear := by
    intro plain slot member
    rcases List.mem_append.mp member with early | late
    · exact first.clear (fun slot own => plain slot (List.mem_append_left _ own)) slot early
    · exact second.clear (fun slot own => plain slot (List.mem_append_right _ own)) slot late
  fixed := by
    intro plain slot member tables slots tables' slots' agree
    rcases List.mem_append.mp member with early | late
    · exact first.fixed (fun slot own => plain slot (List.mem_append_left _ own)) slot early agree.left
    · exact second.fixed (fun slot own => plain slot (List.mem_append_right _ own)) slot late agree.right

private theorem traces_args {args : List Expr}
    (each : ∀ e ∈ args, Traces e.cuts e.extract fun found links => SlotsLike e.slots found.slots links) :
    Traces (Expr.cutsIn args) (Expr.extractIn args) fun found links =>
      SlotsLike (args.flatMap Expr.slots) (found.flatMap Expr.slots) links := by
  induction args with
  | nil => exact Traces.none .nil
  | cons e rest ih =>
    have first := each e List.mem_cons_self
    have later := ih fun e member => each e (List.mem_cons_of_mem _ member)
    exact Traces.both _ first later List.cons fun found links others more like likeRest =>
      like.append likeRest

/-- Searching an expression, given the searches of the levels in its slots. -/
private theorem traces_expr (e : Expr) (closed : e.placeholders = [])
    (levels : ∀ slot ∈ e.slots, slot.2.placeholders = [] →
      Traces slot.2.cuts slot.2.extract (LevelLike slot.2)) :
    Traces e.cuts e.extract fun found links => SlotsLike e.slots found.slots links := by
  revert closed levels
  refine ExprRule.expr (E := fun e => e.placeholders = [] →
    (∀ slot ∈ e.slots, slot.2.placeholders = [] →
      Traces slot.2.cuts slot.2.extract (LevelLike slot.2)) →
    Traces e.cuts e.extract fun found links => SlotsLike e.slots found.slots links) ?_ e
  constructor
  case column => exact fun table name _ _ => Traces.none .nil
  case literal => exact fun value _ _ => Traces.none .nil
  case star => exact fun table _ _ => Traces.none .nil
  case func =>
    intro name args distinct ih closed levels
    rw [Expr.placeholders_func, List.flatMap_eq_nil_iff] at closed
    rw [Expr.slots, Expr.slotsIn_eq] at levels ⊢
    have traces := traces_args fun e member => ih e member (closed e member) fun slot inSlots =>
      levels slot (List.mem_flatMap.mpr ⟨e, member, inSlots⟩)
    refine traces.map (Expr.func name · distinct) fun found links like => ?_
    rw [Expr.slots, Expr.slotsIn_eq]
    exact like
  case binary =>
    intro op left right ihLeft ihRight closed levels
    rw [Expr.placeholders_binary, List.append_eq_nil_iff] at closed
    have first := ihLeft closed.1 fun slot member => levels slot (List.mem_append_left _ member)
    have second := ihRight closed.2 fun slot member => levels slot (List.mem_append_right _ member)
    exact Traces.both _ first second (Expr.binary op) fun _ _ _ _ like like' => like.append like'
  case not =>
    intro operand ih closed levels
    exact (ih closed levels).map Expr.not fun _ _ like => like
  case isNull =>
    intro operand negated ih closed levels
    exact (ih closed levels).map (Expr.isNull · negated) fun _ _ like => like
  case subquery =>
    intro query closed levels
    rw [Expr.placeholders_subquery] at closed
    exact (traces_takeSlot (levels _ List.mem_cons_self closed) closed .scalar).map Expr.subquery
      fun _ _ like => like
  case inSubquery =>
    intro operand query negated ih closed levels
    rw [Expr.placeholders_inSubquery, List.append_eq_nil_iff] at closed
    have own : (SubqueryKind.membership, query) ∈ (Expr.inSubquery operand query negated).slots :=
      List.mem_append_right _ List.mem_cons_self
    have first := ih closed.1 fun slot member => levels slot (List.mem_append_left _ member)
    have second := traces_takeSlot (levels _ own closed.2) closed.2 .membership
    exact Traces.both _ first second (Expr.inSubquery · · negated) fun _ _ _ _ like like' =>
      like.append like'
  case existsSubquery =>
    intro query negated closed levels
    rw [Expr.placeholders_existsSubquery] at closed
    exact (traces_takeSlot (levels _ List.mem_cons_self closed) closed .existence).map
      (Expr.existsSubquery · negated) fun _ _ like => like

private theorem traces_filter {filter : Option Expr}
    (each : ∀ e, filter = some e →
      Traces e.cuts e.extract fun found links => SlotsLike e.slots found.slots links) :
    Traces ((filter.map Expr.cuts).getD []) (match filter with
      | some e => do
        let (e, slots) ← e.extract
        pure (some e, slots)
      | none => pure (none, [])) fun found links => (found = none → filter = none)
        ∧ SlotsLike (filter.toList.flatMap Expr.slots) (found.toList.flatMap Expr.slots) links := by
  cases filter with
  | none => exact Traces.none ⟨fun same => same, .nil⟩
  | some e =>
    refine (each e rfl).map some fun found links like => ⟨fun same => absurd same (Option.some_ne_none found), ?_⟩
    simpa using like

end Expressions

section Levels

private theorem ItemsLike.nil : ItemsLike [] [] [] where
  length := rfl
  placeholder := fun _ same => nomatch same
  fillable := fun _ _ member => nomatch member
  fixed := fun _ {_ _ _ _} _ => rfl

private theorem ItemsLike.cons {item found : FromItem} {items others : List FromItem}
    {links more : List Link} (first : ItemsLike [item] [found] links)
    (second : ItemsLike items others more) :
    ItemsLike (item :: items) (found :: others) (links ++ more) where
  length := congrArg (· + 1) second.length
  placeholder := by
    intro ref same
    obtain ⟨rfl, rfl⟩ := List.cons_eq_cons.mp same
    obtain ⟨d, whole, cut⟩ := first.placeholder ref rfl
    obtain rfl : items = [] := List.length_eq_zero_iff.mp second.length.symm
    exact ⟨d, whole, cut⟩
  fillable := by
    intro plain sub member
    rw [List.flatMap_cons, List.forall_mem_append] at plain
    rcases List.mem_append.mp member with early | late
    · exact first.fillable ((List.flatMap_singleton _ item).symm ▸ plain.1) sub (by simpa using early)
    · exact second.fillable plain.2 sub late
  fixed := by
    intro plain tables slots tables' slots' agree
    rw [List.flatMap_cons, List.forall_mem_append] at plain
    have own := first.fixed ((List.flatMap_singleton _ item).symm ▸ plain.1) agree.left
    have rest := second.fixed plain.2 agree.right
    simp only [List.map_cons, List.map_nil, List.cons.injEq, and_true] at own rest ⊢
    exact ⟨own, rest⟩

private theorem traces_items {items : List FromItem}
    (each : ∀ item ∈ items,
      Traces item.cuts item.extract fun found links => ItemsLike [item] [found] links) :
    Traces (FromItem.cutsIn items) (FromItem.extractIn items) (ItemsLike items) := by
  induction items with
  | nil => exact Traces.none .nil
  | cons item rest ih =>
    have first := each item List.mem_cons_self
    have later := ih fun item member => each item (List.mem_cons_of_mem _ member)
    exact Traces.both _ first later List.cons fun found links others more like likeRest =>
      like.cons likeRest

private theorem itemsLike_join {left right left' right' : FromItem} {kind : JoinKind}
    {on : Option Expr} {links more : List Link} (closed : ∀ e, on = some e → e.placeholders = [])
    (first : ItemsLike [left] [left'] links) (second : ItemsLike [right] [right'] more) :
    ItemsLike [.join left right kind on] [.join left' right' kind on] (links ++ more) where
  length := rfl
  placeholder := fun _ same => nomatch same
  fillable := by
    intro plain sub member
    rw [List.flatMap_singleton, FromItem.directSubqueries, List.forall_mem_append] at plain
    rw [List.flatMap_singleton, FromItem.mem_listed_join] at member
    rcases member with inLeft | inRight | ⟨e, condition, slot, inSlots, rfl⟩
    · exact first.fillable ((List.flatMap_singleton _ left).symm ▸ plain.1) sub (by simpa using inLeft)
    · exact second.fillable ((List.flatMap_singleton _ right).symm ▸ plain.2) sub (by simpa using inRight)
    · exact .of_closed (List.flatMap_eq_nil_iff.mp (closed e condition) slot inSlots)
  fixed := by
    intro plain tables slots tables' slots' agree
    rw [List.flatMap_singleton, FromItem.directSubqueries, List.forall_mem_append] at plain
    have inLeft := first.fixed ((List.flatMap_singleton _ left).symm ▸ plain.1) agree.left
    have inRight := second.fixed ((List.flatMap_singleton _ right).symm ▸ plain.2) agree.right
    have inOn (tables slots) : on.map (Expr.mapSlots (Query.graftSlot tables slots)) = on := by
      cases on with
      | none => rfl
      | some e => rw [Option.map_some, mapSlots_of_closed (closed e rfl)]
    simp only [List.map_cons, List.map_nil, List.cons.injEq, and_true] at inLeft inRight
    simp only [List.map_cons, List.map_nil, FromItem.graft_join, inOn, inLeft, inRight]

private theorem levelLike_searched {selectList : List SelectItem} {items found : List FromItem}
    {filter filter' : Option Expr} {groupBy : List Expr} {having : Option Expr}
    {orderBy : List OrderItem} {limit : Option UInt64} {asName : Option String}
    {links more : List Link}
    (closed : ∀ e ∈ selectList.map SelectItem.expr ++ groupBy ++ having.toList
      ++ orderBy.map OrderItem.expr, e.placeholders = [])
    (inItems : ItemsLike items found links)
    (inFilter : (filter' = none → filter = none)
      ∧ SlotsLike (filter.toList.flatMap Expr.slots) (filter'.toList.flatMap Expr.slots) more) :
    LevelLike ⟨selectList, items, filter, groupBy, having, orderBy, limit, asName⟩
      ⟨selectList, found, filter', groupBy, having, orderBy, limit, asName⟩ (links ++ more) where
  lookalike := by
    intro marker
    obtain ⟨node, marker⟩ := Option.ne_none_iff_exists'.mp marker
    obtain ⟨ref, _, _, whole⟩ := Query.marker?_eq_some.mp marker
    simp only [Query.selectAll, Query.mk.injEq] at whole
    obtain ⟨rfl, placed, unfiltered, rfl, rfl, rfl, rfl, _⟩ := whole
    obtain ⟨d, rfl, aggregates, free⟩ := inItems.placeholder ref placed
    cases inFilter.1 unfiltered
    simp [Query.isLookalike, aggregates, free]
  clear := by
    intro plain
    refine Query.markersInSlots_iff.mpr ⟨?_, fun sub member => ?_⟩
    · exact inItems.fillable fun d member => ⟨plain.1 d member, plain.table member⟩
    · obtain ⟨e, own, slot, inSlots, rfl⟩ := Query.mem_slotted.mp member
      by_cases filtered : e ∈ filter'.toList
      · exact inFilter.2.clear (fun slot own => plain.slot own) slot
          (List.mem_flatMap.mpr ⟨e, filtered, inSlots⟩)
      · have unread : e.placeholders = [] := by
          apply closed
          simp only [Query.exprs, List.mem_append, filtered, or_false] at own ⊢
          exact own
        exact (Query.Fillable.of_closed (List.flatMap_eq_nil_iff.mp unread slot inSlots)).markersInSlots
  fixed := by
    intro plain tables slots tables' slots' agree
    have sameItems := inItems.fixed (fun d member => plain.table member) agree.left
    have sameFilter : filter'.map (Expr.mapSlots (Query.graftSlot tables slots))
        = filter'.map (Expr.mapSlots (Query.graftSlot tables' slots')) := by
      refine Option.map_congr fun e own => Expr.mapSlots_congr fun slot inSlots => ?_
      refine inFilter.2.fixed (fun slot own => ⟨plain.1 slot own, plain.slot own⟩) slot ?_ agree.right
      exact List.mem_flatMap.mpr ⟨e, Option.mem_toList.mpr own, inSlots⟩
    simp only [graft_searched closed, sameItems, sameFilter]

/-- Extraction leaves levels alike, and every node it inserts stems from a cut. -/
theorem traces_extract :
    LevelRule (fun q => q.placeholders = [] → Traces q.cuts q.extract (LevelLike q))
      fun item => item.placeholders = [] →
        Traces item.cuts item.extract fun found links => ItemsLike [item] [found] links where
  level := by
    intro q items levels closed
    have parts := (closed ▸ q.placeholders_perm).symm.eq_nil
    rw [List.append_eq_nil_iff, List.flatMap_eq_nil_iff, List.flatMap_eq_nil_iff] at parts
    obtain ⟨inItems, inExprs⟩ := parts
    rcases q with ⟨selectList, fromList, filter, groupBy, having, orderBy, limit, asName⟩
    have rest (e) (member : e ∈ selectList.map SelectItem.expr ++ groupBy ++ having.toList
        ++ orderBy.map OrderItem.expr) : e.placeholders = [] := by
      refine inExprs e ?_
      simp only [Query.exprs, List.mem_append] at member ⊢
      tauto
    have filtered (e) (same : filter = some e) : e ∈ (Query.mk selectList fromList filter groupBy
        having orderBy limit asName).exprs := by
      simp [Query.exprs, same]
    have traces := Traces.both
      (LevelLike ⟨selectList, fromList, filter, groupBy, having, orderBy, limit, asName⟩)
      (traces_items fun item member => items item member (inItems item member))
      (traces_filter fun e same => traces_expr e (inExprs e (filtered e same)) (levels e (filtered e same)))
      (fun fromList filter => Query.mk selectList fromList filter groupBy having orderBy limit asName)
      fun found links filter' more => levelLike_searched rest
    cases filter <;> exact traces
  table := fun t _ => Traces.none ⟨rfl, nofun, nofun, fun _ {_ _ _ _} _ => rfl⟩
  derived := fun q ih closed => traces_takeTable (ih closed) closed
  join := by
    intro left right kind on ihLeft ihRight _ closed
    have parts := (closed ▸ FromItem.placeholders_join_perm left right kind on).symm.eq_nil
    rw [List.append_eq_nil_iff, List.append_eq_nil_iff] at parts
    obtain ⟨⟨inLeft, inRight⟩, inOn⟩ := parts
    have conditions (e) (same : on = some e) : e.placeholders = [] :=
      List.flatMap_eq_nil_iff.mp inOn e (Option.mem_toList.mpr same)
    exact Traces.both _ (ihLeft inLeft) (ihRight inRight) (FromItem.join · · kind on)
      fun found links found' more => itemsLike_join conditions
  placeholder := fun ref closed => nomatch closed

end Levels

section Building

variable {p p' : Plan} {q : Query} {n : Node} {root : NodeId}

/-- Every node of a built plan stems from the query or from what is cut out of it. -/
theorem stems_of_build (empty : p.nodes = .empty) (closed : q.placeholders = [])
    (built : p.build q = .ok (root, p')) {id : NodeId} (found : p'.node? id = some n) :
    ∃ origin ∈ q :: q.cuts, Stems origin n := by
  obtain ⟨unbuilt, accepted⟩ := of_build built
  cases (build_eq unbuilt accepted).symm.trans built
  obtain ⟨like, descends⟩ := traces_extract.query q closed p.afterOpening
  have there : (decompose q p).2.node? id = some n := found
  have none (id : NodeId) : p.node? id = none := by
    rw [node?, empty]
    rfl
  rcases closeNode_origin (p.opened q) (q.extract p.afterOpening).1.1 (q.extract p.afterOpening).1.2 there
    with ⟨m, parents, broadcasts, before, rfl⟩ | ⟨kind, query, records⟩
  · rcases descends id m before with ⟨m', _, _, before', rfl⟩ | ⟨cut, member, stems⟩
    · cases (none id).symm.trans before'
    · exact ⟨cut, List.mem_cons_of_mem _ member, stems.ends parents broadcasts⟩
  · refine ⟨q, List.mem_cons_self, kind, _, _, (q.extract p.afterOpening).1.1.asName, like, ?_, records⟩
    rw [query]
    cases (q.extract p.afterOpening).1.1
    rfl

theorem Stems.unmarked (stems : Stems q n) (unlike : q.isLookalike = false) : n.query.marker? = none := by
  obtain ⟨level, links, asName, like, whole, _⟩ := stems.level
  rw [whole, Query.marker?_rename]
  exact unmarked_of_like like unlike

/-- A node is fillable when no lookalike is read below it, and it is none itself. -/
theorem Stems.fillable (stems : Stems q n) (plain : q.Throughout Query.TablesPlain)
    (unlike : q.isLookalike = false) : n.query.Fillable := by
  obtain ⟨level, links, asName, like, whole, _⟩ := stems.level
  rw [whole]
  exact (fillable_of_like like plain unlike).rename asName

/-- Without lookalikes in slots, a node means what it restores. -/
theorem Stems.graft_eq (stems : Stems q n) (consistent : n.Consistent)
    (plain : q.Throughout Query.SlotsPlain) (known : NodeId → Query) :
    n.query.graft (among n.dependents known) (among n.dependents known)
      = n.query.graft (among n.tables.keys known) (among n.filters.keys known) := by
  obtain ⟨level, links, asName, like, whole, records⟩ := stems.level
  have agree : Agree links (among n.dependents known) (among n.dependents known)
      (among n.tables.keys known) (among n.filters.keys known) := by
    constructor
    · intro ref member
      obtain ⟨dependent, refs, found⟩ := records _ member
      exact (if_pos dependent).trans (if_pos (consistent.tables.mem_keys.mpr ⟨refs, found⟩)).symm
    · intro read member
      obtain ⟨dependent, reads, found⟩ := records _ member
      exact ⟨known read.ref.node, if_pos dependent,
        if_pos (consistent.filters.mem_keys.mpr ⟨reads, found⟩)⟩
  rw [whole, Query.graft_rename, Query.graft_rename]
  exact congrArg (fun q : Query => { q with asName }) (like.fixed plain agree)

/-- What a node means is what it restores, where that is so of every node. -/
theorem Expands.restores {tops : List NodeId} (sound : p.Sound tops)
    (same : ∀ {id n}, p.node? id = some n → ∀ known : NodeId → Query,
      n.query.graft (among n.dependents known) (among n.dependents known)
        = n.query.graft (among n.tables.keys known) (among n.filters.keys known))
    {id : NodeId} {r : Query} (expands : p.Expands id r) : p.Restores id r := by
  induction expands with
  | @node id n known found below ih =>
    rw [same found]
    refine .node found fun d member => ih d (.inl ?_)
    have consistent := sound.consistent found
    exact member.elim (consistent.tableKeys d) (consistent.filterKeys d)

end Building

section Sample

/-- The sample query has no sub-queries but the two it counts with. -/
theorem busyDays_throughout {P : Query → Prop} (own : P busyDays)
    (counted : ∀ table asName, P { countAll table with asName }) : busyDays.Throughout P := by
  have leaf (table asName) : ({ countAll table with asName } : Query).Throughout P :=
    .of_parts (counted table asName) fun _ member => nomatch member
  refine .of_parts own fun sub member _ => ?_
  rcases List.mem_cons.mp member with rfl | later
  · exact leaf "orders" (some "t")
  · rw [List.mem_singleton.mp later]
    exact leaf "refunds" none

theorem busyDays_tablesPlain : busyDays.Throughout Query.TablesPlain := by
  apply busyDays_throughout
  · intro d member
    rw [List.mem_singleton.mp member]
    rfl
  · exact fun table asName d member => nomatch member

end Sample

end ApproxQuery.Plan
