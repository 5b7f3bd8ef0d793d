import ApproxQuery.Proofs.Plan.Compression
import ApproxQuery.Proofs.Plan.Conversion
import ApproxQuery.Proofs.Plan.Decomposition

/-! The plans that building, compressing and making progressive lead to. Each is a tree that passes
its check, and each node records exactly what its query reads. -/
namespace ApproxQuery.Plan

open Relation

/-- Plans that come from a closed query by any series of rewrites, whatever these report. -/
inductive Reachable : Plan → Prop
  | built {start p : Plan} {q : Query} {root : NodeId} (empty : start.nodes = .empty)
    (closed : q.placeholders = []) (built : start.build q = .ok (root, p)) : Reachable p
  | compressed {p : Plan} (before : Reachable p) : Reachable p.compress.1
  | progressive {p : Plan} (before : Reachable p) : Reachable (makeProgressive p).2

/-- Every node but the root has exactly one parent, and the root leads to it. -/
structure IsTree (p : Plan) (root : NodeId) : Prop where
  rooted : p.root = some root
  rootless : ∃ n, p.node? root = some n ∧ n.parents = []
  parent : ∀ {id n}, p.node? id = some n → id ≠ root →
    ∃ parent, n.parents = [parent] ∧ p.Edge parent id
  reached : ∀ {id n}, p.node? id = some n → ReflTransGen p.Edge root id

variable {p : Plan}

theorem Sound.isTree {root : NodeId} (sound : p.Sound [root]) (rooted : p.root = some root) :
    p.IsTree root where
  rooted := rooted
  rootless := by
    obtain ⟨n, found, rootless, _⟩ := sound.top root List.mem_cons_self
    exact ⟨n, found, rootless⟩
  parent := by
    intro id n found below
    obtain ⟨parent, m, only, there, member⟩ := sound.below found (by simpa using below)
    exact ⟨parent, only, m, there, member⟩
  reached := by
    intro id n found
    by_cases isRoot : id = root
    · exact isRoot ▸ .refl
    · obtain ⟨top, isTop, path⟩ := sound.reached id found (by simpa using isRoot)
      exact List.mem_singleton.mp isTop ▸ path.to_reflTransGen

/-- Every reachable plan is sound under its root. -/
theorem Reachable.sound (reachable : p.Reachable) : ∃ root, p.root = some root ∧ p.Sound [root] := by
  induction reachable with
  | built empty closed built =>
    obtain ⟨rooted, sound⟩ := sound_of_build empty closed built
    exact ⟨_, rooted, sound⟩
  | compressed _ ih =>
    obtain ⟨root, rooted, sound⟩ := ih
    exact ⟨root, sound.keeps_compress.root.trans rooted, sound.keeps_compress.sound⟩
  | progressive _ ih =>
    obtain ⟨root, rooted, sound⟩ := ih
    have keeps := sound.keeps_makeProgressive rooted
    exact ⟨root, keeps.root.trans rooted, keeps.sound⟩

/-- A reachable plan passes its check and is a tree. What a node has recorded for a dependent are the
placeholders of that dependent in its query, each with the scratch table the dependent has. -/
theorem Reachable.well_formed (reachable : p.Reachable) :
    p.check = .ok () ∧ (∃ root, p.IsTree root)
      ∧ ∀ id n, p.node? id = some n → ∀ d ∈ n.dependents, ∃ m, p.node? d = some m
        ∧ (n.recordedRefs d).Perm (n.query.placeholders.filter fun ref => ref.node = d)
        ∧ ∀ ref ∈ n.recordedRefs d, ref.node = d ∧ ref.table = m.scratch := by
  obtain ⟨root, rooted, sound⟩ := reachable.sound
  refine ⟨sound.check_eq_ok rooted, ⟨root, sound.isTree rooted⟩, fun id n found d member => ?_⟩
  obtain ⟨m, there, _⟩ := sound.reads found member
  have recorded := (sound.consistent found).recorded d
  refine ⟨m, there, recorded, fun ref inRecord => ?_⟩
  obtain ⟨occurs, same⟩ := List.mem_filter.mp (recorded.mem_iff.mp inRecord)
  obtain rfl := of_decide_eq_true same
  obtain ⟨m', there', table⟩ := sound.stored found occurs
  cases there.symm.trans there'
  exact ⟨rfl, table⟩

theorem busyDays_built : blank.build busyDays = .ok ((decompose busyDays blank).1, busyDaysPlan) :=
  build_eq rfl rfl

theorem busyDaysPlan_reachable : busyDaysPlan.Reachable := .built rfl rfl busyDays_built

theorem busyDaysPlan_well_formed : busyDaysPlan.Reachable
    ∧ (makeProgressive busyDaysPlan.compress.1).2.check = .ok () := by
  refine ⟨busyDaysPlan_reachable, ?_⟩
  exact (Reachable.well_formed (.progressive (.compressed busyDaysPlan_reachable))).1

end ApproxQuery.Plan
