import ApproxQuery.Proofs.Plan.Completion
import ApproxQuery.Proofs.Plan.Reachable

/-! What a compression reports is what it did, and a second one does nothing. -/
namespace ApproxQuery

open Plan Compressing Relation

variable {p : Plan} {root : NodeId} {c c' : Compressing}

/-- A step that records a violation changes neither the plan nor what has been merged. -/
theorem Settling.recorded (settling : Settling p root c) (next : c.Next c') :
    c'.report.violations = c.report.violations
      ∨ ∃ e, c'.report.violations = c.report.violations ++ [e] ∧ c'.plan = c.plan
        ∧ c'.report.merged = c.report.merged := by
  obtain ⟨id, waiting, _, turn⟩ := settling.turn_of_next next
  cases turn with
  | passed _ _ => exact .inl rfl
  | refused _ _ => exact .inr ⟨_, rfl, rfl, rfl⟩
  | merged _ _ _ _ => exact .inl rfl

namespace Plan

/-- Where no node can be merged, compression does nothing. -/
theorem Sound.compress_of_settled (sound : p.Sound [root]) (rooted : p.root = some root)
    (settled : ∀ id, ¬ p.Mergeable id) : p.compress.1 = p ∧ p.compress.2.merged = [] := by
  have kept {c : Compressing} (steps : ReflTransGen Next (.start p root) c) :
      c.plan = p ∧ c.report.merged = [] := by
    induction steps with
    | refl => exact ⟨rfl, rfl⟩
    | tail before step ih =>
      obtain ⟨same, none⟩ := ih
      obtain ⟨id, waiting, _, turn⟩ := (sound.settling rooted before).turn_of_next step
      cases turn with
      | passed _ _ => exact ⟨same, none⟩
      | refused _ _ => exact ⟨same, none⟩
      | merged mergeable _ _ _ => exact absurd (same ▸ mergeable) (settled id)
  obtain ⟨done, steps, _, outcome⟩ := sound.compress_runs rooted
  rw [outcome]
  exact kept steps

/-- Compression of a reachable plan takes steps from its leaves until nothing waits. A step that
records a violation leaves the plan as it was. The nodes left and those listed as merged are, one for
one, the nodes there were. Compressing again merges nothing and leaves the plan as it is. -/
theorem Reachable.compression_reported (reachable : p.Reachable) :
    (∃ root done, p.root = some root ∧ ReflTransGen Next (.start p root) done ∧ done.waiting = []
        ∧ p.compress = (done.plan, done.report)
        ∧ ∀ c c', ReflTransGen Next (.start p root) c → c.Next c' →
          c'.report.violations = c.report.violations
            ∨ ∃ e, c'.report.violations = c.report.violations ++ [e] ∧ c'.plan = c.plan
              ∧ c'.report.merged = c.report.merged)
      ∧ (p.compress.2.merged.map Prod.fst).Nodup
      ∧ (p.compress.1.nodeIds ++ p.compress.2.merged.map Prod.fst).Perm p.nodeIds
      ∧ p.compress.1.size + p.compress.2.merged.length = p.size
      ∧ p.compress.1.compress.2.merged = [] ∧ p.compress.1.compress.1 = p.compress.1 := by
  obtain ⟨root, rooted, sound⟩ := reachable.sound
  obtain ⟨done, steps, empty, outcome⟩ := sound.compress_runs rooted
  have settling := sound.settling rooted steps
  have removed := settling.removed
  have distinct := removed.nodup_iff.mpr sound.ordered.nodup_keys
  have counted := removed.length_eq
  simp only [List.length_append, List.length_map, length_nodeIds] at counted
  obtain ⟨same, none⟩ := settling.sound.compress_of_settled settling.rooted (settling.settled empty)
  refine ⟨⟨root, done, rooted, steps, empty, outcome, ?_⟩, ?_⟩
  · exact fun c c' before next => (sound.settling rooted before).recorded next
  · have left : p.compress.1 = done.plan := congrArg Prod.fst outcome
    have reported : p.compress.2 = done.report := congrArg Prod.snd outcome
    rw [left, reported]
    exact ⟨distinct.of_append_right, removed, counted, none, same⟩

/-- Both nodes below the root of the sample plan are merged, and nothing is left to a second run. -/
theorem busyDaysPlan_compression_reported : busyDaysPlan.Reachable
    ∧ busyDaysPlan.compress.2.merged.length = 2
    ∧ busyDaysPlan.compress.1.compress.1 = busyDaysPlan.compress.1 := by
  obtain ⟨rooted, sound⟩ := sound_of_build rfl rfl busyDays_built
  obtain ⟨_, n, alone, _⟩ := sound.compress_complete rooted (not_progressive_of_build rfl rfl busyDays_built)
    (fillable_of_build rfl rfl busyDays_built rfl busyDays_tablesPlain)
  obtain ⟨_, _, _, counted, _, same⟩ := Reachable.compression_reported busyDaysPlan_reachable
  have left : busyDaysPlan.compress.1.size = 1 := by
    rw [← length_nodeIds, ← sound.keeps_compress.sound.paired.map_id_nodeList, alone]
    rfl
  have before : busyDaysPlan.size = 3 := by decide +kernel
  exact ⟨busyDaysPlan_reachable, by omega, same⟩

end Plan

end ApproxQuery
