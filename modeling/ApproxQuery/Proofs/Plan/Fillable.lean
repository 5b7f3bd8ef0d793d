import ApproxQuery.Proofs.Plan.Compression
import ApproxQuery.Proofs.Plan.Conversion
import ApproxQuery.Proofs.Query.Fillable

/-! Plans with fillable queries. Rewrites keep them so, and none fails there. Projections may be
exempt: they stand at the top only, so nothing is filled with their queries. -/
namespace ApproxQuery.Plan

open Relation

/-- All nodes of some kinds have fillable queries. -/
def FillableIn (kinds : NodeKind → Prop) (p : Plan) : Prop :=
  ∀ id n, p.node? id = some n → kinds n.kind → n.query.Fillable

/-- Kinds that leave out projections at most. -/
def Wide (kinds : NodeKind → Prop) : Prop := ∀ kind, kind ≠ .projection → kinds kind

theorem wide_all : Wide fun _ => True := fun _ _ => trivial

theorem wide_rest : Wide fun kind => kind ≠ .projection := fun _ other => other

variable {p : Plan} {tops : List NodeId} {kinds : NodeKind → Prop} {childId parentId : NodeId}
  {child parent : Node} {b : Block}

section Merging

/-- An inlining replaces something where the child has a place. -/
theorem replaced_iff {childId : NodeId} {child parent : Query} :
    (inlineInto childId child parent).2 ≠ 0 ↔ parent.HasPlace childId := by
  unfold inlineInto Query.HasPlace
  split
  · rename_i none
    exact (or_iff_right fun sites => sites none).symm
  · rename_i some
    exact iff_of_true some (.inl some)

theorem marker?_inlineInto (childId : NodeId) (child parent : Query) :
    (inlineInto childId child parent).1.marker? = parent.marker? := by
  unfold inlineInto
  split
  · exact Query.marker?_fillMarkers childId child parent
  · exact Query.marker?_fillTables childId child parent

/-- An inlining keeps hidden what the parent hides. -/
theorem hides_inlineInto {node : NodeId} {parent : Query} (childId : NodeId) (child : Query)
    (hides : parent.Hides node) : (inlineInto childId child parent).1.Hides node := by
  unfold inlineInto
  split
  · exact hides.fillMarkers
  · exact hides.fillTables

/-- What is inlined brings along what it hides. -/
theorem hides_inlined {node childId : NodeId} {child parent : Query}
    (replaced : (inlineInto childId child parent).2 ≠ 0) (hides : child.Hides node) :
    (inlineInto childId child parent).1.Hides node := by
  unfold inlineInto at replaced ⊢
  split at replaced
  · rename_i none
    rw [if_pos none]
    exact hides.fillsMarkers replaced
  · rename_i some
    rw [if_neg some]
    exact hides.fillsTables replaced

private theorem fillable_inlineInto {inner outer : Query} (childId : NodeId) (outside : outer.Fillable)
    (inside : inner.Fillable) : (inlineInto childId inner outer).1.Fillable := by
  unfold inlineInto
  split
  · exact outside.fillMarkers inside
  · exact outside.fillTables inside

/-- What is merged is no projection. -/
theorem FillableIn.merging (fillable : p.FillableIn kinds) (wide : Wide kinds)
    (merging : Merging p tops childId parentId child parent) : child.query.Fillable := by
  have notTop := merging.sound.not_top merging.parentFound merging.member
  have kind := (merging.sound.aggregates merging.childFound notTop).2
  exact fillable childId child merging.childFound (wide child.kind kind)

/-- A fillable parent has a place for the child. -/
theorem Merging.replaced (merging : Merging p tops childId parentId child parent)
    (fillable : parent.query.Fillable) :
    (inlineInto childId child.query parent.query).2 ≠ 0 := by
  have consistent := merging.sound.consistent merging.parentFound
  obtain ⟨ref, member, rfl⟩ := consistent.mem_dependents.mp merging.member
  exact replaced_iff.mpr (fillable.found member)

theorem FillableIn.merged (fillable : p.FillableIn kinds) (wide : Wide kinds)
    (merging : Merging p tops childId parentId child parent) {nodes : AscendingMap NodeId Node}
    (merged : Merged p childId parentId child parent nodes) :
    ({ p with nodes } : Plan).FillableIn kinds := by
  intro id n found among
  rcases merged.origin merging found with ⟨_, rfl⟩ | ⟨_, _, m, _, _, there, rfl, _⟩
  · have outside := fillable parentId parent merging.parentFound among
    exact fillable_inlineInto childId outside (fillable.merging wide merging)
  · have same := fillable id m there among
    exact same

/-- A merge keeps queries fillable, whether it succeeds or not. -/
theorem FillableIn.merge (fillable : p.FillableIn kinds) (wide : Wide kinds) (sound : p.Sound tops)
    (target : p.mergeTarget? childId = some parentId) :
    (Plan.merge childId parentId p).2.FillableIn kinds := by
  obtain ⟨child, parent, merging⟩ := sound.merging target
  by_cases unread : (inlineInto childId child.query parent.query).2 = 0
  · rw [merging.merge_error unread]
    exact fillable
  · obtain ⟨nodes, done, merged⟩ := merging.merge_ok unread
    rw [done]
    exact fillable.merged wide merging merged

theorem FillableIn.compress (fillable : p.FillableIn kinds) (wide : Wide kinds) (sound : p.Sound tops) :
    p.compress.1.FillableIn kinds := by
  have kept := sound.compress_induction (P := FillableIn kinds) fillable
    fun sound' target before => before.merge wide sound' target
  exact kept.2

end Merging

section Converting

/-- No node of a whole block is a projection. -/
theorem Sound.kind_of_mem_ids (sound : p.Sound tops) (whole : b.Whole p) {id : NodeId} {n : Node}
    (member : id ∈ b.ids) (found : p.node? id = some n) : n.kind ≠ .projection := by
  rcases List.mem_cons.mp member with rfl | below
  · obtain ⟨root, there, kind⟩ := whole.live
    cases found.symm.trans there
    exact kind
  · obtain ⟨_, _, up, above, reads⟩ := TransGen.tail'_iff.mp (whole.members.mp below)
    exact (sound.aggregates found (sound.not_top above reads)).2

/-- The conversion of a block gives a result and keeps queries fillable, or else it has no place for
a dependent and some query is not fillable. -/
theorem Sound.convert_outcome (sound : p.Sound tops) (wide : Wide kinds) (whole : b.Whole p) :
    (∃ c p', Plan.convert b p = (.ok c, p') ∧ (p.FillableIn kinds → p'.FillableIn kinds))
      ∨ ∃ d id, Plan.convert b p = (.error (.invalid (.placeholderMissing d id)), p)
        ∧ ¬ p.FillableIn kinds := by
  rcases sound.convert_cases whole with ⟨answer, same, _, failed⟩ | ⟨root, scramble, inlined, nodes, converts, done⟩
  · cases answer with
    | ok c => exact .inl ⟨c, p, same, fun fillable => fillable⟩
    | error e =>
      obtain ⟨id, member, n, found, unfillable, d, _, rfl⟩ := failed e rfl
      refine .inr ⟨d, id, same, fun fillable => unfillable ?_⟩
      exact fillable id n found (wide n.kind (sound.kind_of_mem_ids whole member found))
  · refine .inl ⟨_, _, done, fun fillable id n found among => ?_⟩
    rcases converts.origin found with ⟨_, rfl⟩ | ⟨_, there⟩
    · exact .of_closed converts.closed
    · exact fillable id n there among

/-- A series of conversions goes through, or else one has no place for a dependent. -/
private theorem Sound.mapM_convert_outcome (sound : p.Sound tops) (wide : Wide kinds)
    {blocks : List Block} (wholes : ∀ b ∈ blocks, b.Whole p)
    (apart : blocks.Pairwise fun b b' => b.ids.Disjoint b'.ids) :
    (∃ conversions p', (blocks.mapM Plan.convert : PlanM _) p = (.ok conversions, p'))
      ∨ ∃ d id p', (blocks.mapM Plan.convert : PlanM _) p
          = (.error (.invalid (.placeholderMissing d id)), p')
        ∧ ¬ p.FillableIn kinds := by
  induction blocks generalizing p with
  | nil => exact .inl ⟨[], p, rfl⟩
  | cons b later ih =>
    obtain ⟨first, apartLater⟩ := List.pairwise_cons.mp apart
    have whole := wholes b List.mem_cons_self
    obtain ⟨kept, stay⟩ := sound.keeps_convert whole
    rw [List.mapM_cons]
    rcases sound.convert_outcome wide whole with ⟨c, p', done, keeps⟩ | ⟨d, id, failed, unfillable⟩
    · rw [done] at kept stay
      have wholes' (other) (member : other ∈ later) : other.Whole p' :=
        stay other (first other member) (wholes other (List.mem_cons_of_mem _ member))
      rw [bind_ok done]
      rcases ih kept.sound wholes' apartLater with ⟨cs, p'', rest⟩ | ⟨d, id, p'', failed, unfillable⟩
      · rw [bind_ok rest]
        exact .inl ⟨c :: cs, p'', rfl⟩
      · rw [bind_error failed]
        exact .inr ⟨d, id, p'', rfl, mt keeps unfillable⟩
    · rw [bind_error failed]
      exact .inr ⟨d, id, p, rfl, unfillable⟩

/-- Making blocks progressive gives a result where queries are fillable. The only error that there
may be elsewhere is that a dependent has no place. -/
theorem Sound.makeProgressive_outcome {root : NodeId} (sound : p.Sound [root]) (wide : Wide kinds)
    (rooted : p.root = some root) :
    (∃ conversions p', makeProgressive p = (.ok conversions, p'))
      ∨ ∃ d id p', makeProgressive p = (.error (.invalid (.placeholderMissing d id)), p')
        ∧ ¬ p.FillableIn kinds := by
  obtain ⟨blocks, found, wholes, apart⟩ := sound.blocks_ok rooted
  rw [makeProgressive_eq found]
  exact sound.mapM_convert_outcome wide wholes apart

end Converting

end ApproxQuery.Plan
