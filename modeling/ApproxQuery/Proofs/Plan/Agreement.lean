import ApproxQuery.Proofs.Plan.Preparation
import ApproxQuery.Proofs.Plan.Rewrites

/-! Compression before conversion and conversion alone agree on a query whose top aggregates. Merging
and inlining fail on the same queries, and elsewhere make the same query of the only block. -/
namespace ApproxQuery

/-- Two conversions of one block that differ at most in the nodes that the root absorbed. -/
inductive Conversion.Agrees : Conversion → Conversion → Prop
  | converted {node table blocks absorbed absorbed'} :
    Agrees (.converted node table blocks absorbed) (.converted node table blocks absorbed')
  | notConverted {root reason} : Agrees (.notConverted root reason) (.notConverted root reason)

/-- Two preparations converted one block alike. If they did, what is left of it is the same node and all
there is. -/
structure Prepared.Agrees (a b : Prepared) : Prop where
  conversions : ∃ v w, a.conversions = [v] ∧ b.conversions = [w] ∧ v.Agrees w
  nodes : (∃ v ∈ a.conversions, v.isConverted = true) → ∃ n m, a.plan.nodeList = [n]
    ∧ b.plan.nodeList = [m] ∧ n.id = m.id ∧ n.kind = m.kind ∧ n.query = m.query

namespace Plan

/-- Every node aggregates, and none has a marker for its query. -/
def Aggregating (p : Plan) : Prop :=
  ∀ id n, p.node? id = some n → n.kind = .aggregate ∧ n.query.marker? = none

variable {p p' : Plan} {tops : List NodeId} {root childId parentId : NodeId} {child parent : Node}
  {nodes : AscendingMap NodeId Node}

theorem Aggregating.plain (aggregating : p.Aggregating) {id : NodeId} {n : Node}
    (found : p.node? id = some n) : n.isProgressive = false := by
  unfold Node.isProgressive Node.scramble?
  rw [(aggregating id n found).1]
  rfl

theorem aggregating_of_build {q : Query} (empty : p.nodes = .empty) (closed : q.placeholders = [])
    (built : p.build q = .ok (root, p')) (aggregates : q.isAggregateLevel = true) : p'.Aggregating := by
  intro id n found
  obtain ⟨origin, member, stems⟩ := stems_of_build empty closed built found
  have level : origin.isAggregateLevel = true := by
    rcases List.mem_cons.mp member with rfl | cut
    · exact aggregates
    · exact (Query.mem_cuts.mp cut).2
  exact ⟨stems.kind.trans (if_pos level), stems.unmarked (Query.isLookalike_of_isAggregateLevel level)⟩

section Merging

/-- A merge makes no marker that stands outside of slots. -/
theorem clear_of_inlineInto {childId : NodeId} {child parent : Query}
    (replaced : (inlineInto childId child parent).2 ≠ 0)
    (clear : (inlineInto childId child parent).1.MarkersInSlots) :
    parent.MarkersInSlots ∧ child.MarkersInSlots := by
  rw [Query.markersInSlots_iff_hides] at clear
  exact ⟨Query.markersInSlots_iff_hides.mpr fun node hides => clear node (hides_inlineInto childId child hides),
    Query.markersInSlots_iff_hides.mpr fun node hides => clear node (hides_inlined replaced hides)⟩

theorem Aggregating.merged (aggregating : p.Aggregating)
    (merging : Merging p tops childId parentId child parent)
    (merged : Merged p childId parentId child parent nodes) : ({ p with nodes } : Plan).Aggregating := by
  intro id n found
  rcases merged.origin merging found with ⟨_, rfl⟩ | ⟨_, _, m, _, _, there, rfl, _⟩
  · obtain ⟨kind, unmarked⟩ := aggregating parentId parent merging.parentFound
    exact ⟨kind, (marker?_inlineInto childId child.query parent.query).trans unmarked⟩
  · have same := aggregating id m there
    exact same

/-- A merge makes no query fillable. -/
theorem FillableIn.of_merged (aggregating : p.Aggregating)
    (merging : Merging p tops childId parentId child parent)
    (replaced : (inlineInto childId child.query parent.query).2 ≠ 0)
    (merged : Merged p childId parentId child parent nodes)
    (fillable : ({ p with nodes } : Plan).FillableIn fun _ => True) : p.FillableIn fun _ => True := by
  obtain ⟨outer, inner⟩ := clear_of_inlineInto replaced
    (fillable parentId _ merged.merged trivial).markersInSlots
  intro id n found _
  refine ⟨(aggregating id n found).2, ?_⟩
  by_cases isChild : id = childId
  · subst isChild
    cases merging.childFound.symm.trans found
    exact inner
  · by_cases isParent : id = parentId
    · subst isParent
      cases merging.parentFound.symm.trans found
      exact outer
    · by_cases moved : id ∈ child.dependents
      · have after := fillable id _ (merged.moved moved found) trivial
        exact after.markersInSlots
      · have after := fillable id n ((merged.other isChild isParent moved).trans found) trivial
        exact after.markersInSlots

/-- Compression keeps the nodes aggregating, and makes no query fillable. -/
theorem Sound.aggregating_compress (sound : p.Sound tops) (aggregating : p.Aggregating) :
    p.compress.1.Aggregating
      ∧ (p.compress.1.FillableIn (fun _ => True) → p.FillableIn fun _ => True) := by
  have kept := sound.compress_induction
    (P := fun p' => p'.Aggregating ∧ (p'.FillableIn (fun _ => True) → p.FillableIn fun _ => True))
    ⟨aggregating, fun fillable => fillable⟩ fun {p' childId parentId} sound' target before => by
      obtain ⟨child, parent, merging⟩ := sound'.merging target
      by_cases unread : (inlineInto childId child.query parent.query).2 = 0
      · rw [merging.merge_error unread]
        exact before
      · obtain ⟨nodes, done, merged⟩ := merging.merge_ok unread
        rw [done]
        exact ⟨before.1.merged merging merged,
          fun fillable => before.2 (fillable.of_merged before.1 merging unread merged)⟩
  exact kept.2

end Merging

section Converting

/-- What becomes of a plan with one block, given the inlined query of that block. -/
inductive Turns (root : NodeId) (inlined : Query) (catalog : Catalog) : Conversion → Plan → Prop
  | kept {reason p'} (refused : inlined.convertible catalog = .error reason) :
    Turns root inlined catalog (.notConverted root reason) p'
  | turned {scramble absorbed p' n} (allowed : inlined.convertible catalog = .ok scramble)
    (alone : p'.nodeList = [n]) (named : n.id = root) (kind : n.kind = .progressive scramble)
    (query : n.query = inlined) :
    Turns root inlined catalog (.converted root scramble.name scramble.blockCount absorbed) p'

/-- Where all nodes aggregate, the only block is converted as its inlined query allows. There is none
exactly if some query is not fillable. -/
theorem Sound.makeProgressive_single (sound : p.Sound [root]) (rooted : p.root = some root)
    (aggregating : p.Aggregating) :
    (¬ p.FillableIn fun _ => True) ∧ (∃ e p', makeProgressive p = (.error e, p'))
      ∨ (p.FillableIn fun _ => True) ∧ ∃ inlined v p', p.Expands root inlined
        ∧ makeProgressive p = (.ok [v], p') ∧ Turns root inlined p.catalog v p' := by
  obtain ⟨top, found, _⟩ := sound.top root List.mem_cons_self
  obtain ⟨b, single, rfl, whole⟩ := sound.single_block rooted found (aggregating root top found).1
  have all (id n) (there : p.node? id = some n) : id ∈ b.ids := by
    refine whole.mem_ids.mpr ?_
    by_cases isRoot : id = b.root
    · exact isRoot ▸ .refl
    · obtain ⟨up, isTop, path⟩ := sound.reached id there (by simpa using isRoot)
      exact List.mem_singleton.mp isTop ▸ path.to_reflTransGen
  rw [makeProgressive_eq single, List.mapM_cons]
  rcases sound.convert_inlined whole found (aggregating.plain found) with ⟨e, failed, misses⟩
    | ⟨inlined, closed, expands, clear, outcome⟩
  · obtain ⟨id, _, n, there, unfillable, _⟩ := misses
    rw [bind_error failed]
    exact .inl ⟨fun fillable => unfillable (fillable id n there trivial), e, p, rfl⟩
  · have fillable : p.FillableIn fun _ => True := fun id n there _ =>
      ⟨(aggregating id n there).2, clear id (all id n there) n there⟩
    refine .inr ⟨fillable, inlined, ?_⟩
    rcases outcome with ⟨reason, refused, done⟩ | ⟨scramble, nodes, allowed, absorbed, done⟩
    · rw [bind_ok done]
      exact ⟨_, p, expands, rfl, .kept refused⟩
    · obtain ⟨progress, decomposable, scalable⟩ := Query.convertible_eq_ok.mp allowed
      have converts : Converts p b top scramble inlined nodes :=
        ⟨absorbed, found, closed, expands, progress, decomposable, scalable⟩
      obtain ⟨n, alone, there⟩ := (sound.converts whole converts).alone fun id n there => by
        rcases absorbed.origin there with ⟨isRoot, _⟩ | ⟨outside, before⟩
        · exact isRoot
        · exact absurd (all id n before) outside
      obtain rfl : absorbedRoot top scramble inlined = n := Option.some.inj (absorbed.turned.symm.trans there)
      have named := sound.named found
      rw [bind_ok done]
      exact ⟨_, { p with nodes }, expands, rfl, .turned allowed alone named rfl rfl⟩

theorem Turns.agrees {inlined : Query} {catalog : Catalog} {v w : Conversion}
    (first : Turns root inlined catalog v p) (second : Turns root inlined catalog w p') :
    v.Agrees w ∧ (v.isConverted = true → ∃ n m, p.nodeList = [n] ∧ p'.nodeList = [m]
      ∧ n.id = m.id ∧ n.kind = m.kind ∧ n.query = m.query) := by
  cases first with
  | kept refused =>
    cases second with
    | kept refused' =>
      cases refused.symm.trans refused'
      exact ⟨.notConverted, nofun⟩
    | turned allowed => cases refused.symm.trans allowed
  | turned allowed alone named kind query =>
    cases second with
    | kept refused => cases allowed.symm.trans refused
    | turned allowed' alone' named' kind' query' =>
      cases allowed.symm.trans allowed'
      exact ⟨.converted, fun _ => ⟨_, _, alone, alone', named.trans named'.symm, kind.trans kind'.symm,
        query.trans query'.symm⟩⟩

end Converting

/-- Making the compressed plan progressive goes as making the plan itself does. -/
theorem Sound.compress_agrees (sound : p.Sound [root]) (rooted : p.root = some root)
    (aggregating : p.Aggregating) :
    (∃ e e' on off, makeProgressive p.compress.1 = (.error e, on) ∧ makeProgressive p = (.error e', off))
      ∨ ∃ v w on off, makeProgressive p.compress.1 = (.ok [v], on) ∧ makeProgressive p = (.ok [w], off)
        ∧ v.Agrees w ∧ (v.isConverted = true → ∃ n m, on.nodeList = [n] ∧ off.nodeList = [m]
          ∧ n.id = m.id ∧ n.kind = m.kind ∧ n.query = m.query) := by
  have keeps := sound.keeps_compress
  obtain ⟨aggregating', reflects⟩ := sound.aggregating_compress aggregating
  rcases keeps.sound.makeProgressive_single (keeps.root.trans rooted) aggregating'
    with ⟨unfillable, e, on, failed⟩ | ⟨fillable, inlined, v, on, expands, done, turns⟩
  · rcases sound.makeProgressive_single rooted aggregating
      with ⟨_, e', off, failed'⟩ | ⟨fillable, _⟩
    · exact .inl ⟨e, e', on, off, failed, failed'⟩
    · exact absurd (fillable.compress wide_all sound) unfillable
  · rcases sound.makeProgressive_single rooted aggregating
      with ⟨unfillable, _⟩ | ⟨_, inlined', w, off, expands', done', turns'⟩
    · exact absurd (reflects fillable) unfillable
    · obtain rfl := expands.unique (keeps.expands List.mem_cons_self expands')
      rw [keeps.catalog] at turns
      exact .inr ⟨v, w, on, off, done, done', turns.agrees turns'⟩

/-- The passes that come after the checks, with the conversion pass on. -/
private theorem prepare_eq {c : Config} {schema tag : String} {catalog : Catalog} {q : Query} {built : Plan}
    (compress : Bool) (valid : c.validate = .ok ()) (progressive : c.progressive = true)
    (made : Plan.ofQuery schema tag catalog q = .ok built) :
    Plan.prepare { c with compress } schema tag catalog q
      = match makeProgressive (if compress then built.compress.1 else built) with
        | (.ok conversions, plan) =>
          .ok ⟨plan, if compress then some built.compress.2 else none, conversions⟩
        | (.error e, _) => .error (.plan e) := by
  have valid' : ({ c with compress } : Config).validate = .ok () := valid
  unfold prepare
  rw [valid', made]
  cases compress with
  | true =>
    simp only [Config.compressPlan, Config.convertPlan, progressive, if_true, Except.mapError, bind, Except.bind]
    rcases makeProgressive built.compress.1 with ⟨_ | _, _⟩ <;> rfl
  | false =>
    simp only [Config.compressPlan, Config.convertPlan, progressive, if_true, Bool.false_eq_true, if_false,
      Except.mapError, bind, Except.bind]
    rcases makeProgressive built with ⟨_ | _, _⟩ <;> rfl

private theorem prepare_invalid {c : Config} (compress : Bool) {e : ConfigError}
    (invalid : c.validate = .error e) (schema tag : String) (catalog : Catalog) (q : Query) :
    Plan.prepare { c with compress } schema tag catalog q = .error (.config e) := by
  have invalid' : ({ c with compress } : Config).validate = .error e := invalid
  unfold prepare
  rw [invalid']
  rfl

end Plan

open Plan in
/-- With the conversion pass on, preparing an accepted query whose top aggregates goes through with
compression exactly if it does without. Then the only block is converted alike, and if it is converted,
both plans are the same one node. -/
theorem PlanRequest.compression_agrees {r : PlanRequest} {c : Config} (closed : r.query.placeholders = [])
    (accepted : r.query.validate = .ok ()) (aggregates : r.query.isAggregateLevel = true)
    (progressive : c.progressive = true) (tag : String) :
    ((∃ on, r.prepare { c with compress := true } tag = .ok on)
        ↔ ∃ off, r.prepare { c with compress := false } tag = .ok off)
      ∧ ∀ on off, r.prepare { c with compress := true } tag = .ok on →
          r.prepare { c with compress := false } tag = .ok off → on.Agrees off := by
  have same (compress : Bool) : r.prepare { c with compress } tag
      = Plan.prepare { c with compress } (r.schema c) tag r.scrambles r.query := rfl
  rw [same, same]
  cases valid : c.validate with
  | error e =>
    rw [prepare_invalid true valid, prepare_invalid false valid]
    exact ⟨⟨nofun, nofun⟩, nofun⟩
  | ok _ =>
    obtain ⟨root, built, done, made⟩ := ofQuery_eq (r.schema c) tag r.scrambles accepted
    obtain ⟨rooted, sound⟩ := sound_of_build rfl closed done
    have aggregating := aggregating_of_build rfl closed done aggregates
    rw [prepare_eq true valid progressive made, prepare_eq false valid progressive made, if_pos rfl,
      if_neg Bool.false_ne_true]
    rcases sound.compress_agrees rooted aggregating with ⟨e, e', on, off, failed, failed'⟩
      | ⟨v, w, on, off, went, went', agrees, nodes⟩
    · rw [failed, failed']
      exact ⟨⟨nofun, nofun⟩, nofun⟩
    · rw [went, went']
      refine ⟨⟨fun _ => ⟨_, rfl⟩, fun _ => ⟨_, rfl⟩⟩, ?_⟩
      rintro _ _ ⟨⟩ ⟨⟩
      refine ⟨⟨v, w, rfl, rfl, agrees⟩, ?_⟩
      rintro ⟨u, member, converted⟩
      exact nodes (List.mem_singleton.mp member ▸ converted)

section Sample

open Plan

/-- A request for the sum of counts over the orders. -/
def sumOfCountsRequest : PlanRequest := ⟨none, halves, Query.sumOfCounts⟩

/-- It is converted with compression and without. -/
theorem sumOfCountsRequest_agrees : sumOfCountsRequest.query.placeholders = []
    ∧ sumOfCountsRequest.query.validate = .ok () ∧ sumOfCountsRequest.query.isAggregateLevel = true
    ∧ ∃ on off, sumOfCountsRequest.prepare { compress := true } "0" = .ok on
      ∧ sumOfCountsRequest.prepare { compress := false } "0" = .ok off
      ∧ off.conversions = [.converted ⟨0⟩ ⟨"shop", "orders"⟩ 2 [⟨1⟩]] ∧ on.Agrees off := by
  have converted : (sumOfCountsRequest.prepare { compress := false } "0").map Prepared.conversions
      = .ok [.converted ⟨0⟩ ⟨"shop", "orders"⟩ 2 [⟨1⟩]] := by
    decide +kernel
  obtain ⟨both, agrees⟩ := PlanRequest.compression_agrees (r := sumOfCountsRequest) (c := {}) rfl rfl rfl rfl "0"
  cases outcome : sumOfCountsRequest.prepare { compress := false } "0" with
  | error e =>
    rw [outcome] at converted
    cases converted
  | ok off =>
    rw [outcome] at converted
    obtain ⟨on, went⟩ := both.mpr ⟨off, outcome⟩
    exact ⟨rfl, rfl, rfl, on, off, went, rfl, Except.ok.inj converted, agrees on off went outcome⟩

end Sample

end ApproxQuery
