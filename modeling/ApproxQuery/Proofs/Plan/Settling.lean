import ApproxQuery.Proofs.Plan.Draining
import ApproxQuery.Proofs.Plan.Mergeable

/-! Compression of a sound plan runs until no node can be merged: what can be merged waits, or some node
below it does. Where every query is fillable, the root alone is left. -/
namespace ApproxQuery

open Plan Relation

variable {p : Plan} {root id : NodeId} {waiting : List NodeId} {c c' : Compressing}

namespace Compressing

/-- What a step may do to a node of a sound plan. -/
inductive Turn (c : Compressing) (root id : NodeId) (waiting : List NodeId) : Compressing → Prop
  /-- No attempt is made. -/
  | passed {n : Node} (found : c.plan.node? id = some n) (settled : id ∈ c.failed ∨ ¬ c.plan.Mergeable id) :
    Turn c root id waiting ⟨c.plan, n.parents.foldl Node.addOnce waiting, c.failed,
      ⟨c.report.merged, c.report.violations, c.report.steps + 1⟩⟩
  /-- An attempt fails, as the parent has no place for the node. -/
  | refused {up : NodeId} {child parent : Node} (merging : Merging c.plan [root] id up child parent)
    (misplaced : ¬ parent.query.HasPlace id) :
    Turn c root id waiting ⟨c.plan, child.parents.foldl Node.addOnce waiting, id :: c.failed,
      ⟨c.report.merged, c.report.violations ++ [.placeholderNotFound id up], c.report.steps + 1⟩⟩
  /-- The node is merged into its parent. -/
  | merged {up : NodeId} {child parent : Node} {nodes : AscendingMap NodeId Node}
    (mergeable : c.plan.Mergeable id) (merging : Merging c.plan [root] id up child parent)
    (replaced : (inlineInto id child.query parent.query).2 ≠ 0)
    (merged : Merged c.plan id up child parent nodes) :
    Turn c root id waiting ⟨{ c.plan with nodes },
      (up :: (mergedParent id child parent).dependents ++ child.dependents).foldl Node.addOnce waiting,
      c.failed, ⟨c.report.merged ++ [(id, up)], c.report.violations, c.report.steps + 1⟩⟩

theorem turn_of_step {n : Node} (sound : c.plan.Sound [root]) (rooted : c.plan.root = some root)
    (found : c.plan.node? id = some n) : c.Turn root id waiting (c.step id waiting) := by
  unfold step
  simp only [found]
  by_cases failed : id ∈ c.failed
  · rw [if_pos (List.contains_iff_mem.mpr failed)]
    simp only [foldl_enqueue_eq]
    exact .passed found (.inl failed)
  rw [if_neg (mt List.contains_iff_mem.mp failed)]
  cases target : c.plan.mergeTarget? id with
  | none =>
    simp only [foldl_enqueue_eq]
    refine .passed found (.inr ?_)
    rintro ⟨n, up, m, there, plain, above, member, _⟩
    cases target.symm.trans ((sound.mergeTarget?_iff rooted).mpr ⟨n, m, there, plain, above, member⟩)
  | some up =>
    obtain ⟨child, parent, childFound, plain, parentFound, member⟩ := (sound.mergeTarget?_iff rooted).mp target
    have merging : Merging c.plan [root] id up child parent := ⟨sound, childFound, parentFound, member⟩
    by_cases place : parent.query.HasPlace id
    · obtain ⟨nodes, done, merged⟩ := merging.merge_ok (replaced_iff.mpr place)
      have here : ({ c.plan with nodes } : Plan).node? up = some (mergedParent id child parent) := merged.merged
      simp only [done, foldl_enqueue_eq, here, Option.map_some, Option.getD_some]
      exact .merged ⟨child, up, parent, childFound, plain, parentFound, member, place⟩ merging
        (replaced_iff.mpr place) merged
    · simp only [merging.merge_error (of_not_not (mt replaced_iff.mp place))]
      have turn := (Turn.refused merging place : c.Turn root id waiting _)
      rw [merging.ends.2.1] at turn
      exact turn

end Compressing

open Compressing

/-- A compression on its way. What is gone from the plan is listed in the report. -/
structure Settling (p : Plan) (root : NodeId) (c : Compressing) : Prop where
  sound : c.plan.Sound [root]
  rooted : c.plan.root = some root
  distinct : c.waiting.Nodup
  live : ∀ id ∈ c.waiting, ∃ n, c.plan.node? id = some n
  failed : ∀ id ∈ c.failed, ¬ c.plan.Mergeable id
  waits : ∀ id, c.plan.Mergeable id → ∃ d ∈ c.waiting, ReflTransGen c.plan.Edge id d
  removed : (c.plan.nodeIds ++ c.report.merged.map Prod.fst).Perm p.nodeIds

namespace Settling

/-- Every node of a sound plan leads to a leaf. -/
private theorem exists_leaf {tops : List NodeId} (sound : p.Sound tops) (id : NodeId) :
    ∀ n, p.node? id = some n →
      ∃ leaf m, ReflTransGen p.Edge id leaf ∧ p.node? leaf = some m ∧ m.dependents = [] := by
  induction id using sound.founded.induction with
  | _ id ih =>
    intro n found
    cases dependents : n.dependents with
    | nil => exact ⟨id, n, .refl, found, dependents⟩
    | cons d rest =>
      have member : d ∈ n.dependents := dependents ▸ List.mem_cons_self
      obtain ⟨m, there, _⟩ := sound.reads found member
      obtain ⟨leaf, m', path, found', none⟩ := ih d ⟨n, found, member⟩ m there
      exact ⟨leaf, m', .head ⟨n, found, member⟩ path, found', none⟩

theorem start (sound : p.Sound [root]) (rooted : p.root = some root) : Settling p root (.start p root) := by
  obtain ⟨distinct, live⟩ := p.leaves_distinct root
  constructor
  case sound => exact sound
  case rooted => exact rooted
  case distinct => exact distinct
  case live => exact live
  case failed => exact fun _ member => nomatch member
  case waits =>
    rintro id ⟨n, _, _, found, _⟩
    obtain ⟨leaf, m, path, there, none⟩ := exists_leaf sound id n found
    exact ⟨leaf, sound.mem_leaves there none, path⟩
  case removed => exact .of_eq (List.append_nil _)

/-- A node that cannot be merged is taken from the list, and what reads it waits instead. -/
private theorem pass (settling : Settling p root c) (next : c.waiting = id :: waiting) {n : Node}
    (found : c.plan.node? id = some n) (settled : ¬ c.plan.Mergeable id) {failed : List NodeId}
    (all : ∀ id ∈ failed, ¬ c.plan.Mergeable id) (violations : List PlanError) (steps : Nat) :
    Settling p root ⟨c.plan, n.parents.foldl Node.addOnce waiting, failed,
      ⟨c.report.merged, violations, steps⟩⟩ := by
  have distinct := settling.distinct
  rw [next] at distinct
  constructor
  case sound => exact settling.sound
  case rooted => exact settling.rooted
  case distinct => exact Node.nodup_foldl_addOnce _ (List.nodup_cons.mp distinct).2
  case live =>
    intro other member
    rcases Node.mem_foldl_addOnce.mp member with before | parent
    · exact settling.live other (next ▸ List.mem_cons_of_mem _ before)
    · obtain ⟨m, there, _⟩ := settling.sound.paired.upwards found parent
      exact ⟨m, there⟩
  case failed => exact all
  case waits =>
    intro other mergeable
    obtain ⟨d, member, path⟩ := settling.waits other mergeable
    rw [next] at member
    rcases List.mem_cons.mp member with rfl | later
    · -- A path to the node that was taken goes through what reads it.
      rcases ReflTransGen.cases_tail path with rfl | ⟨up, path, m, there, reads⟩
      · exact absurd mergeable settled
      · obtain ⟨n', found', _, only, _⟩ := settling.sound.reads there reads
        cases found.symm.trans found'
        exact ⟨up, Node.mem_foldl_addOnce.mpr (.inr (only ▸ List.mem_singleton_self up)), path⟩
    · exact ⟨d, Node.mem_foldl_addOnce.mpr (.inl later), path⟩
  case removed => exact settling.removed

/-- After a merge the parent and what it reads now are there, besides all that was but the child. -/
private theorem live_merged {up : NodeId} {child parent : Node}
    {nodes : AscendingMap NodeId Node} (merging : Merging p [root] id up child parent)
    (replaced : (inlineInto id child.query parent.query).2 ≠ 0) (merged : Merged p id up child parent nodes)
    {waiting : List NodeId} (taken : id ∉ waiting) (live : ∀ d ∈ waiting, ∃ n, p.node? d = some n) :
    ∀ d ∈ (up :: (mergedParent id child parent).dependents ++ child.dependents).foldl Node.addOnce waiting,
      ∃ n, ({ p with nodes } : Plan).node? d = some n := by
  have reads {d : NodeId} (dependent : d ∈ (mergedParent id child parent).dependents) :
      ∃ n, ({ p with nodes } : Plan).node? d = some n := by
    obtain ⟨n, found, _⟩ := (Sound.merged merging replaced merged).reads merged.merged dependent
    exact ⟨n, found⟩
  intro d member
  rcases Node.mem_foldl_addOnce.mp member with before | new
  · obtain ⟨m, there⟩ := live d before
    obtain ⟨n, found, _⟩ := merged.keeps merging there (ne_of_mem_of_not_mem before taken)
    exact ⟨n, found⟩
  · rcases List.mem_append.mp new with near | inherited
    · rcases List.mem_cons.mp near with rfl | dependent
      · exact ⟨_, merged.merged⟩
      · exact reads dependent
    · exact reads (List.mem_append_right _ inherited)

/-- A merge leaves what waits, with the parent for the node that is gone. -/
private theorem merge (settling : Settling p root c) (next : c.waiting = id :: waiting) {up : NodeId}
    {child parent : Node} {nodes : AscendingMap NodeId Node}
    (merging : Merging c.plan [root] id up child parent)
    (replaced : (inlineInto id child.query parent.query).2 ≠ 0)
    (merged : Merged c.plan id up child parent nodes) (violations : List PlanError) (steps : Nat) :
    Settling p root ⟨{ c.plan with nodes },
      (up :: (mergedParent id child parent).dependents ++ child.dependents).foldl Node.addOnce waiting,
      c.failed, ⟨c.report.merged ++ [(id, up)], violations, steps⟩⟩ := by
  have distinct := settling.distinct
  have live := settling.live
  rw [next] at distinct live
  obtain ⟨taken, distinct⟩ := List.nodup_cons.mp distinct
  constructor
  case sound => exact Sound.merged merging replaced merged
  case rooted => exact settling.rooted
  case distinct => exact Node.nodup_foldl_addOnce _ distinct
  case live =>
    apply live_merged merging replaced merged taken
    exact fun d member => live d (List.mem_cons_of_mem _ member)
  case failed =>
    intro other member after
    exact settling.failed other member (merged.mergeable merging replaced after)
  case waits =>
    intro other after
    obtain ⟨d, member, path⟩ := settling.waits other (merged.mergeable merging replaced after)
    have notChild : other ≠ id := by
      rintro rfl
      obtain ⟨n, _, _, found, _⟩ := after
      exact nomatch found.symm.trans merged.gone
    have path' := merged.path merging path
    rw [if_neg notChild] at path'
    rw [next] at member
    rcases List.mem_cons.mp member with rfl | later
    · rw [if_pos rfl] at path'
      exact ⟨up, Node.mem_foldl_addOnce.mpr (.inr List.mem_cons_self), path'⟩
    · rw [if_neg (ne_of_mem_of_not_mem later taken)] at path'
      exact ⟨d, Node.mem_foldl_addOnce.mpr (.inl later), path'⟩
  case removed =>
    rw [List.map_append, ← List.append_assoc]
    refine (List.perm_append_singleton id _).trans (List.Perm.trans ?_ settling.removed)
    exact (merged.nodeIds_perm merging replaced).append_right _

/-- A failed attempt shows that the node cannot be merged. -/
private theorem not_mergeable {up : NodeId} {child parent : Node}
    (merging : Merging c.plan [root] id up child parent) (misplaced : ¬ parent.query.HasPlace id) :
    ¬ c.plan.Mergeable id := by
  rintro ⟨_, up', m, _, _, there, member, place⟩
  obtain rfl := merging.sound.edge_unique ⟨m, there, member⟩ ⟨parent, merging.parentFound, merging.member⟩
  cases merging.parentFound.symm.trans there
  exact misplaced place

theorem turn (settling : Settling p root c) (next : c.waiting = id :: waiting)
    (turn : c.Turn root id waiting c') : Settling p root c' := by
  cases turn with
  | passed found settled =>
    exact settling.pass next found (settled.elim (settling.failed id) fun unable => unable) settling.failed _ _
  | refused merging misplaced =>
    have unable := not_mergeable merging misplaced
    apply settling.pass next merging.childFound unable
    intro other member
    rcases List.mem_cons.mp member with rfl | before
    · exact unable
    · exact settling.failed other before
  | merged _ merging replaced merged => exact settling.merge next merging replaced merged _ _

/-- A step takes a node that is there. -/
theorem turn_of_next (settling : Settling p root c) (next : c.Next c') :
    ∃ id waiting, c.waiting = id :: waiting ∧ c.Turn root id waiting c' := by
  obtain ⟨id, waiting, first, rfl⟩ := next
  obtain ⟨n, found⟩ := settling.live id (first ▸ List.mem_cons_self)
  exact ⟨id, waiting, first, turn_of_step settling.sound settling.rooted found⟩

theorem next (settling : Settling p root c) (next : c.Next c') : Settling p root c' := by
  obtain ⟨id, waiting, first, turn⟩ := settling.turn_of_next next
  exact settling.turn first turn

/-- When nothing waits, nothing can be merged. -/
theorem settled (settling : Settling p root c) (empty : c.waiting = []) (id : NodeId) :
    ¬ c.plan.Mergeable id := by
  intro mergeable
  obtain ⟨d, member, _⟩ := settling.waits id mergeable
  rw [empty] at member
  cases member

end Settling

namespace Plan

/-- Every state of a compression is on its way. -/
theorem Sound.settling (sound : p.Sound [root]) (rooted : p.root = some root)
    (steps : ReflTransGen Next (.start p root) c) : Settling p root c := by
  induction steps with
  | refl => exact .start sound rooted
  | tail _ step ih => exact ih.next step

/-- Compression of a sound plan steps until nothing waits. -/
theorem Sound.compress_runs (sound : p.Sound [root]) (rooted : p.root = some root) :
    ∃ done, ReflTransGen Next (.start p root) done ∧ done.waiting = []
      ∧ p.compress = (done.plan, done.report) := by
  refine sound.acyclic.compress_runs (fun id n ref found member => .inl ?_) rooted
  exact (sound.consistent found).mem_dependents.mpr ⟨ref, member, rfl⟩

section Completing

/-- A sound plan with no node but its root. -/
theorem Sound.alone (sound : p.Sound [root]) (only : ∀ id n, p.node? id = some n → id = root) :
    ∃ n, p.nodeList = [n] ∧ p.node? root = some n := by
  obtain ⟨n, found, _⟩ := sound.top root List.mem_cons_self
  have ids : p.nodeIds.Perm [root] := by
    refine (List.perm_ext_iff_of_nodup sound.ordered.nodup_keys (List.nodup_singleton root)).mpr fun id => ?_
    rw [List.mem_singleton]
    constructor
    · intro member
      obtain ⟨m, there⟩ := sound.paired.mem_nodeIds.mp member
      exact only id m there
    · rintro rfl
      exact sound.paired.mem_nodeIds.mpr ⟨n, found⟩
  have names := sound.paired.map_id_nodeList.trans (List.perm_singleton.mp ids)
  obtain ⟨m, alone, _⟩ := List.map_eq_singleton_iff.mp names
  have listed : n ∈ p.nodeList := sound.paired.mem_nodeList.mpr ((sound.named found).symm ▸ found)
  rw [alone] at listed
  exact ⟨m, alone, List.mem_singleton.mp listed ▸ found⟩

/-- Nodes that are not progressive and have fillable queries are left unmerged by no attempt. -/
private structure Smooth (c : Compressing) : Prop where
  plain : ∀ id n, c.plan.node? id = some n → n.isProgressive = false
  fillable : c.plan.FillableIn fun _ => True
  quiet : c.report.violations = []

private theorem Smooth.turn (smooth : Smooth c) (turn : c.Turn root id waiting c') : Smooth c' := by
  cases turn with
  | passed found settled => exact ⟨smooth.plain, smooth.fillable, smooth.quiet⟩
  | refused merging misplaced =>
    have outside := smooth.fillable _ _ merging.parentFound trivial
    exact absurd (replaced_iff.mp (merging.replaced outside)) misplaced
  | merged mergeable merging replaced merged =>
    refine ⟨fun id n found => ?_, smooth.fillable.merged wide_all merging merged, smooth.quiet⟩
    obtain ⟨m, there, kind⟩ := merged.kind merging found
    rw [Node.isProgressive, Node.scramble?, kind]
    exact smooth.plain id m there

/-- Where every query is fillable and no node is progressive, compression merges all nodes into the
root and records no violation. -/
theorem Sound.compress_complete (sound : p.Sound [root]) (rooted : p.root = some root)
    (plain : ∀ id n, p.node? id = some n → n.isProgressive = false)
    (fillable : p.FillableIn fun _ => True) :
    p.compress.2.violations = [] ∧ ∃ n, p.compress.1.nodeList = [n] ∧ n.id = root ∧ n.dependents = [] := by
  obtain ⟨done, steps, empty, outcome⟩ := sound.compress_runs rooted
  have settling := sound.settling rooted steps
  have smooth : Smooth done := by
    clear empty outcome settling
    induction steps with
    | refl => exact ⟨plain, fillable, rfl⟩
    | tail before step ih =>
      obtain ⟨id, waiting, _, turn⟩ := (sound.settling rooted before).turn_of_next step
      exact ih.turn turn
  have unread (id : NodeId) (n : Node) (found : done.plan.node? id = some n) (d : NodeId) :
      d ∉ n.dependents := by
    intro member
    obtain ⟨m, there, _⟩ := settling.sound.reads found member
    obtain ⟨ref, inQuery, rfl⟩ := (settling.sound.consistent found).mem_dependents.mp member
    exact settling.settled empty ref.node ⟨m, id, n, there, smooth.plain _ m there, found, member,
      (smooth.fillable id n found trivial).found inQuery⟩
  have only (id : NodeId) (n : Node) (found : done.plan.node? id = some n) : id = root := by
    by_contra below
    obtain ⟨up, m, _, there, member⟩ := settling.sound.below found (by simpa using below)
    exact unread up m there id member
  obtain ⟨n, alone, found⟩ := settling.sound.alone only
  rw [outcome]
  exact ⟨smooth.quiet, n, alone, settling.sound.named found,
    List.eq_nil_iff_forall_not_mem.mpr (unread root n found)⟩

end Completing

end Plan

end ApproxQuery
