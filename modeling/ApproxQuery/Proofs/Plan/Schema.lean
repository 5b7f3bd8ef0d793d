import ApproxQuery.Plan.Prepare
import ApproxQuery.Proofs.Answers
import ApproxQuery.Proofs.Plan.Order

/-! How a plan holds its nodes, and the schema in which these have their scratch tables. The schema is given when the
plan is begun. No way in which a node is made or changed leads out of it, puts a node in another's place or gives it a
parent twice, whether it succeeds or fails, whatever the query is and whichever block is converted. -/
namespace ApproxQuery

/-- The scratch table is in the schema, and no parent is named twice. -/
structure Node.Fits (n : Node) (schema : String) : Prop where
  scratch : n.scratch.schema = schema
  parents : n.parents.Nodup

namespace Node.Fits

variable {schema : String} {n : Node}

/-- Only the scratch table and the parents are looked at. -/
theorem of_eq {n' : Node} (fits : n.Fits schema) (scratch : n'.scratch = n.scratch) (parents : n'.parents = n.parents) :
    n'.Fits schema :=
  ⟨scratch ▸ fits.scratch, parents ▸ fits.parents⟩

theorem addDependent (fits : n.Fits schema) (dependent : NodeId) : (n.addDependent dependent).Fits schema :=
  fits.of_eq rfl rfl

theorem addParent (fits : n.Fits schema) (parent : NodeId) : (n.addParent parent).Fits schema :=
  ⟨fits.scratch, Node.nodup_foldl_addOnce [parent] fits.parents⟩

theorem replaceParent (fits : n.Fits schema) (old new : NodeId) : (n.replaceParent old new).Fits schema :=
  ⟨fits.scratch, Node.nodup_foldl_addOnce _ List.nodup_nil⟩

theorem foldl {β : Type} {f : Node → β → Node} (keeps : ∀ {n} item, n.Fits schema → (f n item).Fits schema)
    (items : List β) (fits : n.Fits schema) : (items.foldl f n).Fits schema := by
  induction items generalizing n with
  | nil => exact fits
  | cons item rest ih => exact ih (keeps item fits)

end Node.Fits

namespace Plan

/-- Every node stands at its place, and fits the schema. -/
structure LiesIn (p : Plan) (schema : String) : Prop extends Stored p where
  own : p.scratchSchema = schema
  scratch : ∀ {id n}, p.node? id = some n → n.scratch.schema = schema

/-- An action stays in the schema, and where it answers the answer is as stated. -/
def Ensures (schema : String) {α : Type} (act : PlanM α) (answer : α → Prop) : Prop :=
  ∀ p, p.LiesIn schema → (act p).2.LiesIn schema ∧ ∀ a, (act p).1 = .ok a → answer a

/-- An action stays in the schema. -/
abbrev Stays (schema : String) {α : Type} (act : PlanM α) : Prop := Ensures schema act fun _ => True

variable {schema : String} {p : Plan} {α β : Type}

namespace LiesIn

theorem nodes (lies : p.LiesIn schema) {id : NodeId} {n : Node} (found : p.node? id = some n) : n.Fits schema :=
  ⟨lies.scratch found, lies.parents found⟩

theorem unbuilt (schema tag : String) (catalog : Catalog) : (Plan.unbuilt schema tag catalog).LiesIn schema where
  ordered := AscendingMap.ordered_empty
  named := nofun
  parents := nofun
  own := rfl
  scratch := nofun

/-- Nodes only are looked at. -/
theorem of_nodes {p' : Plan} (lies : p.LiesIn schema) (nodes : p'.nodes = p.nodes)
    (same : p'.scratchSchema = p.scratchSchema) : p'.LiesIn schema := by
  have look (id) : p'.node? id = p.node? id := congrArg (AscendingMap.find? · id) nodes
  exact {
    ordered := nodes ▸ lies.ordered
    named := fun found => lies.named (look _ ▸ found)
    parents := fun found => lies.parents (look _ ▸ found)
    own := same.trans lies.own
    scratch := fun found => lies.scratch (look _ ▸ found) }

/-- All that there is to show of a plan with other nodes. -/
private theorem withNodes {nodes : AscendingMap NodeId Node} (lies : p.LiesIn schema) (ordered : nodes.Ordered)
    (each : ∀ {id n}, nodes.find? id = some n → n.id = id ∧ n.Fits schema) : { p with nodes }.LiesIn schema where
  ordered := ordered
  named := fun found => (each found).1
  parents := fun found => (each found).2.parents
  own := lies.own
  scratch := fun found => (each found).2.scratch

theorem insertNode (lies : p.LiesIn schema) {n : Node} (fits : n.Fits schema) : (p.insertNode n).LiesIn schema := by
  refine lies.withNodes (lies.ordered.insert n.id n) fun {id m} found => ?_
  have found : (p.insertNode n).node? id = some m := found
  rw [node?_insertNode] at found
  split at found
  · rename_i same
    cases found
    exact ⟨same, fits⟩
  · exact ⟨lies.named found, lies.nodes found⟩

theorem removeNode (lies : p.LiesIn schema) (gone : NodeId) : (p.removeNode gone).LiesIn schema := by
  refine lies.withNodes (lies.ordered.erase gone) fun {id n} found => ?_
  have found : (p.removeNode gone).node? id = some n := found
  rw [node?_removeNode] at found
  split at found
  · cases found
  · exact ⟨lies.named found, lies.nodes found⟩

theorem modifyNode (lies : p.LiesIn schema) (changed : NodeId) {change : Node → Node}
    (keeps : ∀ {n}, n.Fits schema → (change n).id = n.id ∧ (change n).Fits schema) :
    (p.modifyNode changed change).LiesIn schema := by
  refine lies.withNodes (lies.ordered.modify changed change) fun {id n} found => ?_
  have found : (p.modifyNode changed change).node? id = some n := found
  rw [node?_modifyNode] at found
  split at found
  · obtain ⟨m, there, rfl⟩ := Option.map_eq_some_iff.mp found
    obtain ⟨same, fits⟩ := keeps (lies.nodes there)
    exact ⟨same.trans (lies.named there), fits⟩
  · exact ⟨lies.named found, lies.nodes found⟩

end LiesIn

namespace Ensures

variable {act : PlanM α} {next : α → PlanM β} {answer weaker : α → Prop} {later : β → Prop}

theorem pure {a : α} (told : answer a) : Ensures schema (Pure.pure a) answer := by
  refine fun p lies => ⟨lies, fun a' same => ?_⟩
  cases same
  exact told

theorem bind (first : Ensures schema act answer) (second : ∀ a, answer a → Ensures schema (next a) later) :
    Ensures schema (act >>= next) later := by
  intro p lies
  obtain ⟨kept, told⟩ := first p lies
  rcases ran : act p with ⟨outcome, p'⟩
  rw [ran] at kept told
  cases outcome with
  | ok a =>
    rw [bind_ok ran]
    exact second a (told a rfl) p' kept
  | error e =>
    rw [bind_error ran]
    exact ⟨kept, nofun⟩

theorem discard (ensures : Ensures schema act answer) : Stays schema (discard act) := by
  change Stays schema (act >>= fun _ => Pure.pure PUnit.unit)
  exact ensures.bind fun _ _ => pure trivial

theorem mono (ensures : Ensures schema act answer) (weakens : ∀ a, answer a → weaker a) :
    Ensures schema act weaker :=
  fun p lies => (ensures p lies).imp_right fun told a same => weakens a (told a same)

/-- Nothing comes after a failure. -/
theorem fails (e : PlanError) (next : β → PlanM α) : Ensures schema ((throw e : PlanM β) >>= next) answer := by
  intro p lies
  have thrown : (throw e : PlanM β) p = (.error e, p) := rfl
  rw [bind_error thrown]
  exact ⟨lies, nofun⟩

theorem ite {c : Prop} [Decidable c] {other : PlanM α} (left : Ensures schema act answer)
    (right : Ensures schema other answer) : Ensures schema (if c then act else other) answer := by
  split
  · exact left
  · exact right

theorem lift (outcome : Except PlanError α) : Stays schema (liftExcept outcome) :=
  fun _ lies => ⟨lies, fun _ _ => trivial⟩

theorem get : Stays schema (MonadState.get : PlanM Plan) := fun _ lies => ⟨lies, fun _ _ => trivial⟩

/-- A node that is found fits the schema. -/
theorem lookNode (id : NodeId) : Ensures schema (Plan.lookNode id) fun n => n.Fits schema :=
  fun _ lies => ⟨lies, fun _ same => lies.nodes (getNode_eq_ok.mp same)⟩

theorem change {change : Plan → Plan} (keeps : ∀ p, p.LiesIn schema → (change p).LiesIn schema) :
    Stays schema (modify change : PlanM PUnit) := fun p lies => ⟨keeps p lies, fun _ _ => trivial⟩

theorem insert {n : Node} (fits : n.Fits schema) :
    Stays schema (modify (·.insertNode n) : PlanM PUnit) := change fun _ lies => lies.insertNode fits

/-- What an action does that cannot fail. -/
theorem ofState {act : StateM Plan α}
    (keeps : ∀ p, p.LiesIn schema → (act p).2.LiesIn schema ∧ answer (act p).1) :
    Ensures schema (liftM act : PlanM α) answer := by
  refine fun p lies => ⟨(keeps p lies).1, fun a same => ?_⟩
  cases same
  exact (keeps p lies).2

theorem forM {items : List β} {each : β → PlanM PUnit} (keeps : ∀ item ∈ items, Stays schema (each item)) :
    Stays schema (items.forM each) := by
  induction items with
  | nil => exact pure trivial
  | cons item rest ih =>
    refine (keeps item List.mem_cons_self).bind fun _ _ => ?_
    exact ih fun item member => keeps item (List.mem_cons_of_mem _ member)

theorem mapM {items : List β} {each : β → PlanM α} (keeps : ∀ item ∈ items, Ensures schema (each item) answer) :
    Ensures schema (items.mapM each) fun answers => ∀ a ∈ answers, answer a := by
  induction items with
  | nil => exact pure nofun
  | cons item rest ih =>
    rw [List.mapM_cons]
    refine (keeps item List.mem_cons_self).bind fun a told => ?_
    refine (ih fun item member => keeps item (List.mem_cons_of_mem _ member)).bind fun others all => ?_
    exact pure (List.forall_mem_cons.mpr ⟨told, all⟩)

end Ensures

section Building

open Ensures

variable {q : Query} {extract : PlanM (Query × List Link)}

private theorem ensures_openNode (q : Query) :
    Ensures schema (liftM (openNode q) : PlanM OpenNode) fun start => start.scratch.schema = schema :=
  .ofState fun _ lies => ⟨lies.of_nodes rfl rfl, lies.own⟩

private theorem stays_drawQueue : Stays schema (liftM drawQueue : PlanM QueueId) :=
  .ofState fun _ lies => ⟨lies.of_nodes rfl rfl, trivial⟩

private theorem stays_drawAlias : Stays schema (liftM drawAlias : PlanM String) :=
  .ofState fun _ lies => ⟨lies.of_nodes rfl rfl, trivial⟩

private theorem fits_addLink {n : Node} (link : Link) (fits : n.Fits schema) : (addLink n link).Fits schema := by
  cases link with
  | _ => exact fits.of_eq rfl rfl

private theorem stays_changeNode (id : NodeId) {change : Node → Node}
    (keeps : ∀ {n}, n.Fits schema → (change n).id = n.id ∧ (change n).Fits schema) :
    Stays schema (changeNode id change) := by
  unfold changeNode
  refine (Ensures.lookNode id).discard.bind fun _ _ => ?_
  exact .change fun _ lies => lies.modifyNode id keeps

theorem Ensures.createNode (keeps : Stays schema extract) (q : Query) : Stays schema (createNode q extract) := by
  unfold Plan.createNode
  refine (ensures_openNode q).bind fun start own => keeps.bind fun ⟨level, links⟩ _ => ?_
  cases links with
  | nil =>
    have fits : (Node.new start.id start.kind level start.scratch).Fits schema := ⟨own, List.nodup_nil⟩
    exact (Ensures.insert fits).bind fun _ _ => .pure trivial
  | cons link rest =>
    refine stays_drawQueue.bind fun queue _ => ?_
    have changes (link : Link) : Stays schema (changeNode link.node fun child =>
        (child.addParent start.id).addBroadcast queue) :=
      stays_changeNode link.node fun fits => ⟨rfl, (fits.addParent start.id).of_eq rfl rfl⟩
    refine (Ensures.forM fun link _ => changes link).bind fun _ _ => ?_
    refine (Ensures.insert ?_).bind fun _ _ => .pure trivial
    exact Node.Fits.foldl fits_addLink _ ⟨own, List.nodup_nil⟩

private theorem stays_unnamed (keeps : Stays schema extract) : Stays schema (unnamed extract) :=
  keeps.bind fun _ _ => .pure trivial

private theorem stays_placeholderFor (child : NodeId) (asName : String) :
    Stays schema (placeholderFor child asName) :=
  (Ensures.lookNode child).bind fun _ _ => .pure trivial

theorem Ensures.extractTable (keeps : Stays schema extract) : Stays schema (extractTable q extract) := by
  have made := (stays_unnamed keeps).createNode q
  have read (child : NodeId) (asName : String) : Stays schema (do
      let ref ← placeholderFor child asName
      return (FromItem.placeholder ref, [Link.table ref])) :=
    (stays_placeholderFor child asName).bind fun _ _ => .pure trivial
  unfold Plan.extractTable
  split
  · exact .pure trivial
  · split
    · exact keeps.bind fun _ _ => .pure trivial
    · cases q.asName with
      | some asName => exact made.bind fun child _ => read child asName
      | none => exact stays_drawAlias.bind fun asName _ => made.bind fun child _ => read child asName

theorem Ensures.extractSlot (keeps : Stays schema extract) (kind : SubqueryKind) :
    Stays schema (extractSlot kind q extract) := by
  unfold Plan.extractSlot
  split
  · exact .pure trivial
  · split
    · exact keeps
    · refine ((stays_unnamed keeps).createNode q).bind fun child _ => stays_drawAlias.bind fun asName _ => ?_
      exact (stays_placeholderFor child asName).bind fun _ _ => .pure trivial

/-- Two parts, one after the other. -/
private theorem stays_both {γ : Type} {left : PlanM (α × List Link)} {right : PlanM (β × List Link)}
    (first : Stays schema left) (second : Stays schema right) (join : α → β → γ) : Stays schema (do
      let (a, links) ← left
      let (b, more) ← right
      return (join a b, links ++ more)) :=
  first.bind fun _ _ => second.bind fun _ _ => .pure trivial

/-- A part around another. -/
private theorem stays_around {γ : Type} {inner : PlanM (α × List Link)} (keeps : Stays schema inner)
    (around : α → γ) : Stays schema (do
      let (a, links) ← inner
      return (around a, links)) :=
  keeps.bind fun _ _ => .pure trivial

mutual

private theorem stays_query : ∀ q : Query, Stays schema (q.extractBy extractor)
  | ⟨_, fromList, none, _, _, _, _, _⟩ => by
    unfold Query.extractBy
    exact (stays_items fromList).bind fun _ _ => .pure trivial
  | ⟨_, fromList, some e, _, _, _, _, _⟩ => by
    unfold Query.extractBy
    exact (stays_items fromList).bind fun _ _ => (stays_expr e).bind fun _ _ => .pure trivial

private theorem stays_item : ∀ item : FromItem, Stays schema (item.extractBy extractor)
  | .subquery query => (stays_query query).extractTable
  | .join left right kind on =>
    stays_both (stays_item left) (stays_item right) (FromItem.join · · kind on)
  | .table _ => .pure trivial
  | .placeholder _ => .pure trivial

private theorem stays_items : ∀ items : List FromItem, Stays schema (FromItem.extractInBy extractor items)
  | [] => .pure trivial
  | item :: rest => stays_both (stays_item item) (stays_items rest) List.cons

private theorem stays_expr : ∀ e : Expr, Stays schema (e.extractBy extractor)
  | .subquery query => stays_around ((stays_query query).extractSlot .scalar) Expr.subquery
  | .inSubquery operand query negated =>
    stays_both (stays_expr operand) ((stays_query query).extractSlot .membership) (Expr.inSubquery · · negated)
  | .existsSubquery query negated =>
    stays_around ((stays_query query).extractSlot .existence) (Expr.existsSubquery · negated)
  | .func name args distinct => stays_around (stays_exprs args) (Expr.func name · distinct)
  | .binary op left right => stays_both (stays_expr left) (stays_expr right) (Expr.binary op)
  | .not operand => stays_around (stays_expr operand) Expr.not
  | .isNull operand negated => stays_around (stays_expr operand) (Expr.isNull · negated)
  | .column _ _ => .pure trivial
  | .literal _ => .pure trivial
  | .star _ => .pure trivial

private theorem stays_exprs : ∀ es : List Expr, Stays schema (Expr.extractInBy extractor es)
  | [] => .pure trivial
  | e :: rest => stays_both (stays_expr e) (stays_exprs rest) List.cons

end

private theorem stays_buildQuery (q : Query) : Stays schema (buildQuery q) := by
  unfold buildQuery
  refine Ensures.get.bind fun p _ => ?_
  cases p.root with
  | none =>
    refine (Ensures.lift q.validate).bind fun _ _ => ((stays_query q).createNode q).bind fun root _ => ?_
    refine Ensures.bind (Ensures.change fun p lies => ?_) fun _ _ => .pure trivial
    exact lies.of_nodes rfl rfl
  | some root => exact .fails (.alreadyBuilt root) _

/-- A plan is built in the schema that it is given. -/
theorem LiesIn.ofQuery {tag : String} {catalog : Catalog} {q : Query}
    (built : Plan.ofQuery schema tag catalog q = .ok p) : p.LiesIn schema := by
  have keeps := (stays_buildQuery q _ (LiesIn.unbuilt schema tag catalog)).1
  unfold Plan.ofQuery build at built
  rcases ran : buildQuery q (Plan.unbuilt schema tag catalog) with ⟨outcome, p'⟩
  rw [ran] at keeps built
  cases outcome with
  | error e => cases built
  | ok root =>
    cases built
    exact keeps

end Building

section Rewriting

private theorem fits_inheritRefs (child : Node) {n : Node} (fits : n.Fits schema) (copies : Nat) :
    (inheritRefs child n copies).Fits schema := by
  induction copies with
  | zero => exact fits
  | succ copies ih => exact ih.of_eq rfl rfl

private theorem fits_handOver (child : Node) {n : Node} (fits : n.Fits schema) (parentId : NodeId)
    (slot : Option QueueId) : (handOver child parentId slot n).Fits schema := by
  have replaced := fits.replaceParent child.id parentId
  cases slot with
  | _ => exact replaced.of_eq rfl rfl

private theorem stays_hands (child : Node) (parentId : NodeId) (slot : Option QueueId) (d : NodeId) :
    Stays schema (do
      let n ← lookNode d
      modify (·.insertNode (handOver child parentId slot n))) := by
  exact (Ensures.lookNode d).bind fun n fits => .insert (fits_handOver child fits parentId slot)

/-- The end of a merge: the parent forgets the queues that nobody feeds, and the child goes. -/
private theorem stays_closes (childId parentId : NodeId) (orphans : List NodeId) : Stays schema (do
      let parent ← lookNode parentId
      let p ← get
      let live := (parent.dependents.filterMap p.node?).flatMap Node.broadcasts
      modify (·.insertNode { parent with listens := parent.listens.filter live.contains })
      modify (·.removeNode childId)
      return orphans) := by
  refine (Ensures.lookNode parentId).bind fun parent fits => Ensures.get.bind fun p _ => ?_
  refine Ensures.bind (Ensures.insert (fits.of_eq rfl rfl)) fun _ _ => ?_
  exact Ensures.bind (Ensures.change fun _ lies => lies.removeNode childId) fun _ _ => .pure trivial

private theorem stays_merge (childId parentId : NodeId) : Stays schema (merge childId parentId) := by
  unfold merge
  refine (Ensures.lookNode childId).bind fun child _ => (Ensures.lookNode parentId).bind fun parent fits => ?_
  have folded (query : Query) (copies : Nat) : (inheritRefs child
      (child.dependents.foldl Node.addDependent (({ parent with query } : Node).removeDependent childId))
      copies).Fits schema := by
    have emptied : (({ parent with query } : Node).removeDependent childId).Fits schema := fits.of_eq rfl rfl
    exact fits_inheritRefs child (.foldl (fun d fits => fits.addDependent d) child.dependents emptied) copies
  generalize inlineInto childId child.query parent.query = inlined
  obtain ⟨query, replaced⟩ := inlined
  dsimp only
  split
  · exact .fails _ _
  · split
    · exact .fails _ _
    · refine (Ensures.insert (folded query replaced)).bind fun _ _ => ?_
      refine (Ensures.forM fun d _ => stays_hands child parentId _ d).bind fun _ _ => ?_
      exact stays_closes childId parentId _

end Rewriting

section Compression

private theorem plan_enqueue (ids : List NodeId) (c : Compressing) :
    (ids.foldl Compressing.enqueue c).plan = c.plan := by
  induction ids generalizing c with
  | nil => rfl
  | cons id rest ih => exact ih (c.enqueue id)

private theorem stays_step {c : Compressing} (lies : c.plan.LiesIn schema) (id : NodeId) (waiting : List NodeId) :
    (c.step id waiting).plan.LiesIn schema := by
  unfold Compressing.step
  dsimp only
  split
  · exact lies
  · split
    · rw [plan_enqueue]
      exact lies
    · rename_i parentId _
      have merged := (stays_merge id parentId c.plan lies).1
      split
      · rename_i ran
        rw [plan_enqueue]
        rw [ran] at merged
        exact merged
      · rename_i ran
        rw [ran] at merged
        exact merged

private theorem stays_run (fuel : Nat) {c : Compressing} (lies : c.plan.LiesIn schema) :
    (c.run fuel).plan.LiesIn schema := by
  induction fuel generalizing c with
  | zero => exact lies
  | succ fuel ih =>
    unfold Compressing.run
    split
    · exact lies
    · exact ih (stays_step lies _ _)

/-- Compression leaves the scratch tables in the schema. -/
theorem LiesIn.compress (lies : p.LiesIn schema) : p.compress.1.LiesIn schema := by
  unfold Plan.compress
  split
  · exact lies
  · exact stays_run _ lies

end Compression

section Conversion

/-- What is done once the node that replaces a block is made up. -/
private theorem stays_replaces (b : Block) (conversion : Conversion) {root : Node}
    (fits : root.Fits schema) (outward : Outward) (queue : QueueId) : Stays schema (do
      modify (·.insertNode root)
      b.external.forM fun d => do
        let n ← lookNode d
        let n := b.members.foldl (fun n m => n.replaceParent m b.root) n
        let n := { n with broadcasts := n.broadcasts.filter fun q => !outward.queues.contains q }
        modify (·.insertNode (n.addBroadcast queue))
      b.members.forM fun m => modify (·.removeNode m)
      return conversion) := by
  refine (Ensures.insert fits).bind fun _ _ => (Ensures.forM fun d _ => ?_).bind fun _ _ => ?_
  · refine (Ensures.lookNode d).bind fun n there => .insert ?_
    have replaced : (b.members.foldl (fun n m => n.replaceParent m b.root) n).Fits schema :=
      .foldl (fun m fits => fits.replaceParent m b.root) b.members there
    exact replaced.of_eq rfl rfl
  · exact (Ensures.forM fun m _ => .change fun _ lies => lies.removeNode m).bind fun _ _ => .pure trivial

private theorem stays_absorb (b : Block) (scramble : ScrambleMeta) (inlined : Query) :
    Stays schema (absorb b scramble inlined) := by
  unfold absorb
  refine (Ensures.mapM fun id _ => Ensures.lookNode id).bind fun nodes _ => ?_
  refine (Ensures.lookNode b.root).bind fun root fits => ?_
  let outward := nodes.foldl (Outward.gather b) ⟨.empty, .empty, []⟩
  let replacing (queue : QueueId) : Node := { root with
    kind := .progressive scramble
    query := inlined
    dependents := b.external
    tables := outward.tables
    filters := outward.filters
    listens := if b.external.isEmpty then [] else [queue] }
  have works (queue : QueueId) := stays_replaces b (.converted b.root scramble.name scramble.blockCount b.members)
    (show (replacing queue).Fits schema from fits.of_eq rfl rfl) outward queue
  have given (queue : QueueId) : Stays schema (pure queue : PlanM QueueId) := .pure trivial
  cases root.listens with
  | cons queue later => exact (given queue).bind fun queue _ => works queue
  | nil =>
    refine .ite ?_ ?_
    · exact (given ⟨0⟩).bind fun queue _ => works queue
    · exact stays_drawQueue.bind fun queue _ => works queue

theorem stays_convert (b : Block) : Stays schema (convert b) := by
  unfold convert
  refine (Ensures.lookNode b.root).bind fun root _ => ?_
  split
  · exact .pure trivial
  · refine Ensures.get.bind fun p _ => (Ensures.lift (p.inlineBlock b)).bind fun inlined _ => ?_
    split
    · exact .pure trivial
    · split
      · exact .pure trivial
      · split
        · exact .pure trivial
        · exact stays_absorb b _ inlined

/-- Conversion leaves the scratch tables in the schema. -/
theorem stays_makeProgressive : Stays schema makeProgressive := by
  unfold makeProgressive
  refine Ensures.get.bind fun p _ => (Ensures.lift p.blocks).bind fun blocks _ => ?_
  exact (Ensures.mapM fun b _ => stays_convert b).mono fun _ _ => trivial

private theorem LiesIn.convertPlan {c : Config} {conversions : List Conversion} {p' : Plan}
    (lies : p.LiesIn schema) (done : c.convertPlan p = .ok (p', conversions)) : p'.LiesIn schema := by
  have keeps := (stays_makeProgressive p lies).1
  unfold Config.convertPlan at done
  split at done
  · rcases ran : makeProgressive p with ⟨outcome, p''⟩
    rw [ran] at keeps done
    cases outcome with
    | error e => cases done
    | ok conversions' =>
      cases done
      exact keeps
  · cases done
    exact lies

/-- A prepared plan has its scratch tables in the schema it is given, however it was prepared. -/
theorem LiesIn.prepare {c : Config} {tag : String} {catalog : Catalog} {q : Query} {prepared : Prepared}
    (done : Plan.prepare c schema tag catalog q = .ok prepared) : prepared.plan.LiesIn schema := by
  simp only [Plan.prepare, bind_eq_ok, mapError_eq_ok] at done
  obtain ⟨_, _, built, made, ⟨p', conversions⟩, converted, ⟨⟩⟩ := done
  refine LiesIn.convertPlan ?_ converted
  have lies := LiesIn.ofQuery made
  unfold Config.compressPlan
  split
  · exact lies.compress
  · exact lies

end Conversion

section Making

/-- The plans that can come about. One is begun without nodes; then queries are built, the plan is compressed, any
block at all is converted, known blocks are made progressive and names are drawn, in whatever order and whether or not
that succeeds. -/
inductive Made : Plan → Prop
  | unbuilt (schema tag : String) (catalog : Catalog) : Made (Plan.unbuilt schema tag catalog)
  | build {p : Plan} (made : Made p) (q : Query) : Made (buildQuery q p).2
  | compress {p : Plan} (made : Made p) : Made p.compress.1
  | convert {p : Plan} (made : Made p) (b : Block) : Made (convert b p).2
  | makeProgressive {p : Plan} (made : Made p) : Made (makeProgressive p).2
  | drawIdentifier {p : Plan} (made : Made p) : Made (drawIdentifier p).2

theorem Made.liesIn (made : p.Made) : p.LiesIn p.scratchSchema := by
  obtain ⟨schema, lies⟩ : ∃ schema, p.LiesIn schema := by
    induction made with
    | unbuilt schema tag catalog => exact ⟨schema, .unbuilt schema tag catalog⟩
    | build _ q ih => exact ih.imp fun _ lies => (stays_buildQuery q _ lies).1
    | compress _ ih => exact ih.imp fun _ lies => lies.compress
    | convert _ b ih => exact ih.imp fun _ lies => (stays_convert b _ lies).1
    | makeProgressive _ ih => exact ih.imp fun _ lies => (stays_makeProgressive _ lies).1
    | drawIdentifier _ ih => exact ih.imp fun _ lies => lies.of_nodes rfl rfl
  exact lies.own.symm ▸ lies

/-- Whatever is done to a plan, each of its nodes stands at its place, and names no parent twice. -/
theorem Made.stored (made : p.Made) : p.Stored := made.liesIn.toStored

end Making

end Plan

end ApproxQuery
