import ApproxQuery.Proofs.Plan.Naming

/-! Building looks each node that it has made up again, and none is ever missing: it fails only before
it has begun, and otherwise comes to the decomposition of the query. -/
namespace ApproxQuery.Plan

variable {p p' : Plan} {cuts others : List Query}

section Nodes

/-- All nodes that are linked to are there to be changed. -/
private theorem forM_changeNode {links : List Link} (change : Node → Node)
    (live : ∀ link ∈ links, ∃ n, p.node? link.node = some n) :
    (links.forM fun link => changeNode link.node change : PlanM Unit) p
      = (.ok (), links.foldl (fun p link => p.modifyNode link.node change) p) := by
  induction links generalizing p with
  | nil => rfl
  | cons link rest ih =>
    obtain ⟨n, found⟩ := live link List.mem_cons_self
    have changed : changeNode link.node change p = (.ok (), p.modifyNode link.node change) := by
      unfold changeNode
      exact bind_ok (a := ()) (bind_ok (lookNode_eq found))
    refine (bind_ok changed).trans (ih fun other member => ?_)
    obtain ⟨m, there⟩ := live other (List.mem_cons_of_mem _ member)
    rw [node?_modifyNode, there]
    split
    · exact ⟨change m, rfl⟩
    · exact ⟨m, rfl⟩

/-- A node whose level links to nodes that are there is made. -/
private theorem createNode_eq {q level : Query} {extract : PlanM (Query × List Link)} {links : List Link}
    (ran : extract p.afterOpening = (.ok (level, links), p'))
    (live : ∀ link ∈ links, ∃ n, p'.node? link.node = some n) :
    createNode q extract p = (.ok ⟨p.nextNode⟩, (closeNode (p.opened q) level links p').2) := by
  have opened : (openNode q : PlanM OpenNode) p = (.ok (p.opened q), p.afterOpening) := rfl
  unfold createNode
  rw [bind_ok opened, bind_ok ran]
  cases links with
  | nil => rfl
  | cons link rest =>
    let drawn : Plan := { p' with nextQueue := p'.nextQueue + 1 }
    have queue : (drawQueue : PlanM QueueId) p' = (.ok ⟨p'.nextQueue⟩, drawn) := rfl
    have changed := forM_changeNode (p := drawn)
      (fun child => (child.addParent (p.opened q).id).addBroadcast ⟨p'.nextQueue⟩) live
    exact (bind_ok queue).trans (bind_ok changed)

end Nodes

/-- An action does what one without look-ups does, in every plan, and hands names out for the cuts. -/
def Runs {α : Type} (checked : PlanM (α × List Link)) (plain : StateM Plan (α × List Link))
    (cuts : List Query) : Prop :=
  ∀ p, checked p = (.ok (plain p).1, (plain p).2)
    ∧ ∃ draws, Making p (plain p).2 (plain p).1.2 cuts draws

namespace Runs

variable {α β γ : Type} {checked : PlanM (α × List Link)} {plain : StateM Plan (α × List Link)}

/-- A part without nodes. -/
theorem of_pure (a : α) : Runs (pure (a, [])) (pure (a, [])) [] := fun p => ⟨rfl, [], .none p⟩

/-- A part around another. -/
theorem map (runs : Runs checked plain cuts) (around : α → γ) :
    Runs (do let (a, links) ← checked; return (around a, links))
      (do let (a, links) ← plain; return (around a, links)) cuts := by
  intro p
  obtain ⟨ran, making⟩ := runs p
  exact ⟨bind_ok ran, making⟩

/-- Two parts, one after the other. -/
theorem both {second : PlanM (β × List Link)} {plainSecond : StateM Plan (β × List Link)}
    (left : Runs checked plain cuts) (right : Runs second plainSecond others) (join : α → β → γ) :
    Runs (do
      let (a, links) ← checked
      let (b, more) ← second
      return (join a b, links ++ more)) (do
      let (a, links) ← plain
      let (b, more) ← plainSecond
      return (join a b, links ++ more)) (cuts ++ others) := by
  intro p
  obtain ⟨ran, draws, making⟩ := left p
  obtain ⟨ran', later, making'⟩ := right (plain p).2
  exact ⟨(bind_ok ran).trans (bind_ok ran'), draws ++ later, making.append making'⟩

end Runs

section Taking

variable {q : Query} {extract : PlanM (Query × List Link)} {plain : StateM Plan (Query × List Link)}

/-- The plan once a node of the query is made, its level having been searched. -/
private def created (q : Query) (plain : StateM Plan (Query × List Link)) (p : Plan) : Plan :=
  (closeNode (p.opened q) (plain p.afterOpening).1.1 (plain p.afterOpening).1.2 (plain p.afterOpening).2).2

private theorem Runs.create (runs : Runs extract plain cuts) (q : Query) (p : Plan) :
    createNode q extract p = (.ok ⟨p.nextNode⟩, created q plain p)
      ∧ (∃ n, (created q plain p).node? ⟨p.nextNode⟩ = some n ∧ n.scratch = p.numberedTable p.identifiers)
      ∧ ∃ draws, Making p (created q plain p) [] (q :: cuts) draws ∧ .asName ⟨p.nextNode⟩ ∉ draws := by
  obtain ⟨ran, draws, making⟩ := runs p.afterOpening
  obtain ⟨nodes, shape, _, look⟩ := closeNode_eq (p.opened q) (plain p.afterOpening).1.1 _ _ making.apart
  refine ⟨createNode_eq ran fun link member => making.live (making.linked (.inl member)), ?_, _,
    making.close q _, ?_⟩
  · rw [created, shape]
    exact ⟨_, (look _).trans (if_pos rfl), rfl⟩
  · intro member
    rcases List.mem_cons.mp member with same | later
    · cases same
    · exact (making.drawn_made later).ne_opened rfl

private theorem made_own {draws : List Draw} {p' : Plan} (making : Making p p' [] (q :: cuts) draws) :
    p'.MadeSince p.nextNode ⟨p.nextNode⟩ :=
  ⟨Nat.le_refl _, by rw [making.nextNode, List.length_cons]; exact Nat.lt_add_of_pos_right (Nat.succ_pos _)⟩

private theorem placeholderFor_eq {child : NodeId} {n : Node} {table : TableName}
    (found : p.node? child = some n) (scratch : n.scratch = table) (asName : String) :
    placeholderFor child asName p = (.ok ⟨child, table, asName⟩, p) :=
  (bind_ok (lookNode_eq found)).trans (scratch ▸ rfl)

/-- The first of the cuts is for the first node. -/
private theorem drawsAlias_own {first : Nat} {table : TableName} {asName : String} :
    DrawsAlias first (q :: cuts) (.table ⟨⟨first⟩, table, asName⟩) ↔ q.asName = none := by
  rw [DrawsAlias, Nat.sub_self, List.getElem?_cons_zero]
  constructor
  · rintro ⟨_, ⟨⟩, unnamed⟩
    exact unnamed
  · exact fun unnamed => ⟨q, rfl, unnamed⟩

private def withoutName (plain : StateM Plan (Query × List Link)) : StateM Plan (Query × List Link) := do
  let (level, links) ← plain
  return ({ level with asName := none }, links)

private theorem Runs.unnamed (runs : Runs extract plain cuts) :
    Runs (Plan.unnamed extract) (withoutName plain) cuts :=
  runs.map fun level => ({ level with asName := none } : Query)

theorem Runs.takeTable (runs : Runs extract plain q.cuts) :
    Runs (extractTable q extract) (Plan.takeTable q plain) (FromItem.subquery q).cuts := by
  unfold extractTable Plan.takeTable FromItem.cuts
  cases q.isCorrelated with
  | true => exact .of_pure _
  | false =>
    cases q.isAggregateLevel with
    | false => exact runs.map FromItem.subquery
    | true =>
      cases named : q.asName with
      | some asName =>
        intro p
        obtain ⟨made, ⟨n, found, scratch⟩, draws, making, _⟩ := runs.unnamed.create q p
        refine ⟨(bind_ok made).trans (bind_ok (placeholderFor_eq found scratch asName)), draws, ?_⟩
        refine making.read_given (made_own making) fun drawn => ?_
        rw [drawsAlias_own, named] at drawn
        cases drawn
      | none =>
        intro p
        let p₀ : Plan := { p with identifiers := p.identifiers + 1 }
        obtain ⟨made, ⟨n, found, scratch⟩, draws, making, unread⟩ := runs.unnamed.create q p₀
        have drawn : (drawAlias : PlanM String) p = (.ok (p.numberedAlias p.identifiers), p₀) := rfl
        refine ⟨(bind_ok drawn).trans ((bind_ok made).trans (bind_ok (placeholderFor_eq found scratch _))),
          .asName ⟨p.nextNode⟩ :: draws, ?_⟩
        have own := made_own (p := p₀) making
        exact making.read_before own unread (drawsAlias_own.mpr named) rfl

theorem Runs.takeSlot (runs : Runs extract plain q.cuts) (kind : SubqueryKind) :
    Runs (extractSlot kind q extract) (Plan.takeSlot kind q plain) (FromItem.subquery q).cuts := by
  unfold extractSlot Plan.takeSlot FromItem.cuts
  cases q.isCorrelated with
  | true => exact .of_pure _
  | false =>
    cases q.isAggregateLevel with
    | false => exact runs
    | true =>
      intro p
      obtain ⟨made, ⟨n, found, scratch⟩, draws, making, unread⟩ := runs.unnamed.create q p
      let p' := created q (withoutName plain) p
      let p'' : Plan := { p' with identifiers := p'.identifiers + 1 }
      have drawn : (drawAlias : PlanM String) p' = (.ok (p'.numberedAlias p'.identifiers), p'') := rfl
      have placed := placeholderFor_eq (p := p'') found scratch (p'.numberedAlias p'.identifiers)
      refine ⟨(bind_ok made).trans ((bind_ok drawn).trans (bind_ok placed)),
        draws ++ [.asName ⟨p.nextNode⟩], ?_⟩
      exact making.read_after (made_own making) unread trivial rfl

end Taking

section Extraction

private theorem runs_args {args : List Expr}
    (each : ∀ e ∈ args, Runs (e.extractBy extractor) e.extract e.cuts) :
    Runs (Expr.extractInBy extractor args) (Expr.extractIn args) (Expr.cutsIn args) := by
  induction args with
  | nil => exact .of_pure []
  | cons e rest ih =>
    have later := ih fun e member => each e (List.mem_cons_of_mem _ member)
    exact (each e List.mem_cons_self).both later List.cons

/-- The search of an expression, given those of the levels in its slots. -/
private theorem runs_expr (e : Expr)
    (levels : ∀ slot ∈ e.slots, Runs (slot.2.extractBy extractor) slot.2.extract slot.2.cuts) :
    Runs (e.extractBy extractor) e.extract e.cuts := by
  revert levels
  refine ExprRule.expr (E := fun e =>
    (∀ slot ∈ e.slots, Runs (slot.2.extractBy extractor) slot.2.extract slot.2.cuts) →
    Runs (e.extractBy extractor) e.extract e.cuts) ?_ e
  constructor
  case column => exact fun table name _ => .of_pure _
  case literal => exact fun value _ => .of_pure _
  case star => exact fun table _ => .of_pure _
  case func =>
    intro name args distinct ih levels
    rw [Expr.slots, Expr.slotsIn_eq] at levels
    have runs := runs_args fun e member => ih e member fun slot inSlots =>
      levels slot (List.mem_flatMap.mpr ⟨e, member, inSlots⟩)
    exact runs.map (Expr.func name · distinct)
  case binary =>
    intro op left right ihLeft ihRight levels
    exact (ihLeft fun slot member => levels slot (List.mem_append_left _ member)).both
      (ihRight fun slot member => levels slot (List.mem_append_right _ member)) (Expr.binary op)
  case not => exact fun operand ih levels => (ih levels).map Expr.not
  case isNull => exact fun operand negated ih levels => (ih levels).map (Expr.isNull · negated)
  case subquery =>
    exact fun query levels => ((levels _ List.mem_cons_self).takeSlot .scalar).map Expr.subquery
  case inSubquery =>
    intro operand query negated ih levels
    have own : (SubqueryKind.membership, query) ∈ (Expr.inSubquery operand query negated).slots :=
      List.mem_append_right _ List.mem_cons_self
    exact (ih fun slot member => levels slot (List.mem_append_left _ member)).both
      ((levels _ own).takeSlot .membership) (Expr.inSubquery · · negated)
  case existsSubquery =>
    exact fun query negated levels =>
      ((levels _ List.mem_cons_self).takeSlot .existence).map (Expr.existsSubquery · negated)

private theorem runs_items {items : List FromItem}
    (each : ∀ item ∈ items, Runs (item.extractBy extractor) item.extract item.cuts) :
    Runs (FromItem.extractInBy extractor items) (FromItem.extractIn items) (FromItem.cutsIn items) := by
  induction items with
  | nil => exact .of_pure []
  | cons item rest ih =>
    have later := ih fun item member => each item (List.mem_cons_of_mem _ member)
    exact (each item List.mem_cons_self).both later List.cons

/-- Every search, of a query and of a from-list item, does what the one without look-ups does. -/
private theorem runs_extract : LevelRule (fun q => Runs (q.extractBy extractor) q.extract q.cuts)
    fun item => Runs (item.extractBy extractor) item.extract item.cuts where
  level := by
    rintro ⟨selectList, fromList, filter, groupBy, having, orderBy, limit, asName⟩ items levels
    cases filter with
    | none =>
      exact (runs_items items).both (.of_pure none)
        fun items filter => Query.mk selectList items filter groupBy having orderBy limit asName
    | some e =>
      intro p
      obtain ⟨ran, draws, making⟩ := runs_items items p
      obtain ⟨ran', later, making'⟩ := runs_expr e (levels e (by simp [Query.exprs])) _
      exact ⟨(bind_ok ran).trans (bind_ok ran'), _, making.append making'⟩
  table := fun t => .of_pure _
  derived := fun q ih => ih.takeTable
  join := fun left right kind on ihLeft ihRight _ => ihLeft.both ihRight (FromItem.join · · kind on)
  placeholder := fun ref => .of_pure _

end Extraction

section Building

variable {q : Query}

/-- A node of a query is made in every plan, with a draw for each number in between. -/
theorem createNode_decompose (p : Plan) (q : Query) :
    createNode q (q.extractBy extractor) p = (.ok (decompose q p).1, (decompose q p).2)
      ∧ ∃ draws, Making p (decompose q p).2 [] (q :: q.cuts) draws := by
  obtain ⟨made, _, draws, making, _⟩ := (runs_extract.query q).create q p
  exact ⟨made, draws, making⟩

/-- Building comes to the decomposition of the query. -/
theorem buildQuery_eq (unbuilt : p.root = none) (accepted : q.validate = .ok ()) : buildQuery q p
    = (.ok (decompose q p).1, { (decompose q p).2 with root := some (decompose q p).1, source := some q }) := by
  have validated : liftExcept q.validate p = (.ok (), p) := by rw [accepted]; rfl
  unfold buildQuery
  rw [bind_ok (show (get : PlanM Plan) p = (.ok p, p) from rfl), unbuilt]
  exact (bind_ok validated).trans (bind_ok (createNode_decompose p q).1)

theorem buildQuery_built {root : NodeId} (built : p.root = some root) :
    buildQuery q p = (.error (.alreadyBuilt root), p) := by
  unfold buildQuery
  rw [bind_ok (show (get : PlanM Plan) p = (.ok p, p) from rfl), built]
  rfl

theorem buildQuery_rejected {e : PlanError} (unbuilt : p.root = none)
    (rejected : q.validate = .error e) : buildQuery q p = (.error e, p) := by
  have validated : liftExcept q.validate p = (.error e, p) := by rw [rejected]; rfl
  unfold buildQuery
  rw [bind_ok (show (get : PlanM Plan) p = (.ok p, p) from rfl), unbuilt]
  exact bind_error validated

/-- The action answers in every plan. -/
def NeverFails {α : Type} (act : PlanM α) : Prop := ∀ p, ∃ a p', act p = (.ok a, p')

theorem Runs.neverFails {α : Type} {checked : PlanM (α × List Link)} {plain : StateM Plan (α × List Link)}
    (runs : Runs checked plain cuts) : NeverFails checked := fun p => ⟨_, _, (runs p).1⟩

/-- Building is all or nothing. It fails only if the plan is built already or the query is rejected, and
then nothing changes. Otherwise the plan has the root and the query on record, and a new node for the query
and for each of its cuts, beside those that it had. The decomposition of a query never fails, and each number
that is drawn in it goes into one name, of a scratch table or of an alias that the query does not give; no two
of the names that are handed out are the same. -/
theorem buildQuery_all_or_nothing (p : Plan) (q : Query) :
    (∀ sub : Query, NeverFails (createNode sub (sub.extractBy extractor)))
    ∧ (∀ item : FromItem, NeverFails (item.extractBy extractor))
    ∧ (∀ e : Expr, NeverFails (e.extractBy extractor))
    ∧ ((∃ e, buildQuery q p = (.error e, p)
          ∧ ((∃ root, p.root = some root ∧ e = .alreadyBuilt root) ∨ p.root = none ∧ q.validate = .error e))
      ∨ p.root = none ∧ q.validate = .ok () ∧ ∃ root p', buildQuery q p = (.ok root, p')
        ∧ p'.root = some root ∧ p'.source = some q ∧ root = ⟨p.nextNode⟩
        ∧ p'.nextNode = p.nextNode + (q.cuts.length + 1)
        ∧ (∀ id, p'.MadeSince p.nextNode id → ∃ n, p'.node? id = some n)
        ∧ (∀ id, ¬ p'.MadeSince p.nextNode id → p'.node? id = p.node? id)
        ∧ (∃ draws : List Draw, draws.Nodup ∧ p'.identifiers = p.identifiers + draws.length
          ∧ ∀ d name, p'.HandedOut p.nextNode [] (q :: q.cuts) d name
            ↔ ∃ k, draws[k]? = some d ∧ name = d.name p (p.identifiers + k))
        ∧ ∀ d d' name, p'.HandedOut p.nextNode [] (q :: q.cuts) d name →
          p'.HandedOut p.nextNode [] (q :: q.cuts) d' name → d = d') := by
  refine ⟨?_, ?_, ?_, ?_⟩
  · exact fun sub p => ⟨_, _, (createNode_decompose p sub).1⟩
  · exact fun item => (runs_extract.item item).neverFails
  · exact fun e => (runs_expr e fun slot _ => runs_extract.query slot.2).neverFails
  · cases earlier : p.root with
    | some root => exact .inl ⟨_, buildQuery_built earlier, .inl ⟨root, rfl, rfl⟩⟩
    | none =>
      cases checked : q.validate with
      | error e => exact .inl ⟨e, buildQuery_rejected earlier checked, .inr ⟨rfl, rfl⟩⟩
      | ok _ =>
        obtain ⟨_, draws, making⟩ := createNode_decompose p q
        let p' : Plan := { (decompose q p).2 with root := some (decompose q p).1, source := some q }
        have handed (d name) : p'.HandedOut p.nextNode [] (q :: q.cuts) d name
            ↔ ∃ k, draws[k]? = some d ∧ name = d.name p (p.identifiers + k) := by
          have same : p'.HandedOut p.nextNode [] (q :: q.cuts) d name
            ↔ (decompose q p).2.HandedOut p.nextNode [] (q :: q.cuts) d name := handedOut_congr rfl rfl
          exact same.trans making.handed
        refine .inr ⟨rfl, rfl, _, p', buildQuery_eq earlier checked, rfl, rfl, rfl, making.nextNode,
          fun id made => making.live made, fun id unmade => making.old unmade,
          ⟨draws, making.distinct, making.identifiers, handed⟩, fun d d' name first second => ?_⟩
        obtain ⟨k, here, rfl⟩ := (handed d name).mp first
        obtain ⟨k', there, same⟩ := (handed d' _).mp second
        have number : k = k' := Nat.add_left_cancel (Draw.name_injective same)
        exact Option.some.inj (here.symm.trans (number ▸ there))

end Building

end ApproxQuery.Plan
