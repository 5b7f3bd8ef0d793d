import ApproxQuery.Proofs.Plan.Reachable

/-! What rewrites preserve: the query that the root of a plan means. -/
namespace ApproxQuery.Plan

variable {p p' : Plan} {tops : List NodeId}

/-- A node means this query and no other. -/
def Means (p : Plan) (id : NodeId) (q : Query) : Prop := ∀ r, p.Expands id r ↔ r = q

theorem Expands.means {id : NodeId} {q : Query} (expands : p.Expands id q) : p.Means id q := by
  refine fun r => ⟨fun other => other.unique expands, ?_⟩
  rintro rfl
  exact expands

theorem Keeps.means {top : NodeId} {q : Query} (keeps : Keeps tops p p') (isTop : top ∈ tops)
    (means : p.Means top q) : p'.Means top q :=
  (keeps.expands isTop ((means q).mpr rfl)).means

/-- What was converted stores the query that it meant before. -/
private theorem Sound.stored_converted (sound : p.Sound tops) {b : Block} (whole : b.Whole p)
    {id : NodeId} {table : TableName} {count : Nat} {absorbed : List NodeId}
    (converted : (convert b p).1 = .ok (.converted id table count absorbed)) :
    ∃ n, (convert b p).2.node? id = some n ∧ p.Means id n.query := by
  rcases sound.convert_cases whole with ⟨answer, same, left, _⟩ | ⟨root, scramble, inlined, nodes, converts, done⟩
  · rw [same] at converted
    cases left _ converted
  · rw [done] at converted ⊢
    cases converted
    exact ⟨_, converts.turned, converts.expands.means⟩

/-- Rewrites preserve meaning. Each reachable plan has one query that its root means. Compression
leaves it the same, and so does each conversion of the series that makes blocks progressive; a node
that was converted stores what it meant before. -/
theorem Reachable.rewrites_preserve_meaning (reachable : p.Reachable) :
    ∃ root q, p.root = some root ∧ p.Means root q
      ∧ p.compress.1.root = some root ∧ p.compress.1.Means root q
      ∧ ∃ blocks, p.blocks = .ok blocks ∧ makeProgressive p = (blocks.mapM convert : PlanM _) p
        ∧ (makeProgressive p).2.root = some root ∧ (makeProgressive p).2.Means root q
        ∧ ∀ done b rest, blocks = done ++ b :: rest →
          let before := ((done.mapM convert : PlanM _) p).2
          let after := convert b before
          before.root = some root ∧ before.Means root q
            ∧ after.2.root = some root ∧ after.2.Means root q
            ∧ ∀ id table count absorbed, after.1 = .ok (.converted id table count absorbed) →
              ∃ n, after.2.node? id = some n ∧ before.Means id n.query := by
  obtain ⟨root, rooted, sound⟩ := reachable.sound
  have isTop : root ∈ [root] := List.mem_cons_self
  obtain ⟨n, found, _⟩ := sound.top root isTop
  obtain ⟨q, expands⟩ := sound.exists_expands found
  have compressed := sound.keeps_compress
  obtain ⟨blocks, located, wholes, apart⟩ := sound.blocks_ok rooted
  have progressive := sound.keeps_makeProgressive rooted
  refine ⟨root, q, rooted, expands.means, compressed.root.trans rooted,
    compressed.means isTop expands.means, blocks, located, makeProgressive_eq located,
    progressive.root.trans rooted, progressive.means isTop expands.means, ?_⟩
  rintro done b rest rfl
  obtain ⟨kept, wholesLeft⟩ := sound.keeps_mapM_convert done (b :: rest) wholes apart
  have whole := wholesLeft b List.mem_cons_self
  have step := kept.trans (kept.sound.keeps_convert whole).1
  exact ⟨kept.root.trans rooted, kept.means isTop expands.means, step.root.trans rooted,
    step.means isTop expands.means, fun _ _ _ _ => kept.sound.stored_converted whole⟩

theorem busyDaysPlan_meaning : busyDaysPlan.Reachable
    ∧ ∃ root q, busyDaysPlan.Means root q ∧ busyDaysPlan.compress.1.Means root q := by
  obtain ⟨root, q, _, before, _, after, _⟩ :=
    Reachable.rewrites_preserve_meaning busyDaysPlan_reachable
  exact ⟨busyDaysPlan_reachable, root, q, before, after⟩

end ApproxQuery.Plan
