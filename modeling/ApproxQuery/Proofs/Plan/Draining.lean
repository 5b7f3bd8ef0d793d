import ApproxQuery.Proofs.Plan.Folding
import ApproxQuery.Proofs.Plan.Leaves
import Mathlib.Tactic.Ring

/-! The work-list of compression runs empty on every plan without cycles, whatever its nodes share and
wherever merges fail. The list is worked through in turns. What comes to wait in a turn reads what was
taken in it and stands higher, so there are no more turns than nodes, and no turn is longer than there are
nodes. A merge begins the turns anew, with a node less. -/
namespace ApproxQuery

open Plan Relation

variable {p : Plan} {root id : NodeId} {waiting : List NodeId} {c c' : Compressing}

namespace Compressing

/-- The compression of a plan before its first step: the leaves wait. -/
def start (p : Plan) (root : NodeId) : Compressing :=
  ⟨p, p.leavesFrom p.rounds [root] [root], [], ⟨[], [], 0⟩⟩

/-- One step: the first waiting node is taken. -/
def Next (c c' : Compressing) : Prop := ∃ id waiting, c.waiting = id :: waiting ∧ c' = c.step id waiting

/-- What a step does to the plan and to the list. -/
inductive Pop (c : Compressing) (id : NodeId) (waiting : List NodeId) : Compressing → Prop
  /-- The node stays, and what reads it waits. -/
  | passed {n : Node} (found : c.plan.node? id = some n) (failed : List NodeId)
    (violations : List PlanError) :
    Pop c id waiting ⟨c.plan, n.parents.foldl Node.addOnce waiting, failed,
      ⟨c.report.merged, violations, c.report.steps + 1⟩⟩
  /-- The node is folded into its parent, which waits with all nodes around it. -/
  | folded {up : NodeId} {child parent : Node} {nodes : AscendingMap NodeId Node}
    (folding : Folding c.plan id up child parent) (folded : Folded c.plan id up child parent nodes) :
    Pop c id waiting ⟨{ c.plan with nodes },
      (up :: (foldedParent id child parent).dependents ++ child.dependents).foldl Node.addOnce waiting,
      c.failed, ⟨c.report.merged ++ [(id, up)], c.report.violations, c.report.steps + 1⟩⟩

theorem pop_of_step {n : Node} (acyclic : c.plan.Acyclic) (found : c.plan.node? id = some n) :
    c.Pop id waiting (c.step id waiting) := by
  unfold step
  simp only [found]
  cases target : (if c.failed.contains id then none else c.plan.mergeTarget? id) with
  | none =>
    simp only [foldl_enqueue_eq]
    exact .passed found _ _
  | some up =>
    have allowed : c.plan.mergeTarget? id = some up := by
      split at target
      · cases target
      · exact target
    obtain ⟨child, parent, folding⟩ := acyclic.folding allowed
    rcases folding.merge_cases with ⟨e, failed⟩ | ⟨nodes, done, folded⟩
    · have pop := (Pop.passed folding.childFound (id :: c.failed) (c.report.violations ++ [e]) :
        c.Pop id waiting _)
      rw [folding.only] at pop
      simp only [failed]
      exact pop
    · have here : ({ c.plan with nodes } : Plan).node? up
          = some (listening (foldedParent id child parent) nodes) := folded.folded
      simp only [done, foldl_enqueue_eq, here, Option.map_some, Option.getD_some]
      exact .folded folding folded

end Compressing

open Compressing

namespace Plan

section Rank

/-- How many nodes lead to a node. This falls on every way up. -/
def rank (p : Plan) (id : NodeId) : Nat := (p.nodeIds.filter fun up => (p.descendants up).contains id).length

private theorem leads_iff {up : NodeId} : (p.descendants up).contains id = true ↔ TransGen p.Edge up id := by
  rw [List.contains_iff_mem, mem_descendants]

private theorem Acyclic.rank_lt_of_edge (acyclic : p.Acyclic) {up : NodeId} (edge : p.Edge up id) :
    p.rank up < p.rank id := by
  have within : (p.nodeIds.filter fun other => (p.descendants other).contains up)
      = (p.nodeIds.filter fun other => (p.descendants other).contains id).filter
        fun other => (p.descendants other).contains up := by
    rw [List.filter_filter]
    refine List.filter_congr fun other _ => ?_
    rw [Bool.eq_iff_iff, Bool.and_eq_true, leads_iff, leads_iff]
    exact (and_iff_left_of_imp fun path => path.tail edge).symm
  have live : ∃ n, p.node? up = some n := edge.imp fun _ both => both.1
  unfold rank
  rw [within]
  refine List.length_filter_lt_length_iff_exists.mpr ⟨up, ?_, mt leads_iff.mp (acyclic.loopless up)⟩
  exact List.mem_filter.mpr ⟨acyclic.mem_nodeIds.mpr live, leads_iff.mpr (.single edge)⟩

private theorem Acyclic.rank_lt_size (acyclic : p.Acyclic) {n : Node} (found : p.node? id = some n) :
    p.rank id < p.size := by
  unfold rank
  rw [← length_nodeIds]
  refine List.length_filter_lt_length_iff_exists.mpr ⟨id, acyclic.mem_nodeIds.mpr ⟨n, found⟩, ?_⟩
  exact mt leads_iff.mp (acyclic.loopless id)

end Rank

section Rounds

/-- A list in the course of a round. What is still to be taken in it stands no higher than a bound, and
what was put behind stands lower. Without merges no more nodes will be taken than are given. -/
def InRound (p : Plan) (waiting : List NodeId) (left : Nat) : Prop :=
  ∃ now later bound, waiting = now ++ later ∧ (∀ id ∈ now, p.rank id ≤ bound)
    ∧ (∀ id ∈ later, p.rank id < bound) ∧ now.length + bound * p.size ≤ left

private theorem length_le_size (acyclic : p.Acyclic) {ids : List NodeId} (distinct : ids.Nodup)
    (live : ∀ id ∈ ids, ∃ n, p.node? id = some n) : ids.length ≤ p.size := by
  rw [← length_nodeIds]
  exact (List.subperm_of_subset distinct fun id member => acyclic.mem_nodeIds.mpr (live id member)).length_le

/-- Any list of nodes can begin a round. -/
private theorem InRound.begin (acyclic : p.Acyclic) (distinct : waiting.Nodup)
    (live : ∀ id ∈ waiting, ∃ n, p.node? id = some n) : p.InRound waiting (p.size * p.size) := by
  have few := length_le_size acyclic distinct live
  refine ⟨waiting, [], p.size - 1, (List.append_nil _).symm, fun id member => ?_, nofun, ?_⟩
  · obtain ⟨n, found⟩ := live id member
    exact Nat.le_sub_one_of_lt (acyclic.rank_lt_size found)
  · cases size : p.size with
    | zero => rw [size] at few; omega
    | succ m =>
      rw [size] at few
      rw [Nat.add_sub_cancel, Nat.add_mul, Nat.one_mul]
      omega

/-- The first node that waits is the next of its round, or a new round begins with it. -/
private theorem InRound.first (acyclic : p.Acyclic) (distinct : (id :: waiting).Nodup)
    (live : ∀ d ∈ id :: waiting, ∃ n, p.node? d = some n) {left : Nat}
    (round : p.InRound (id :: waiting) left) : ∃ now later bound, waiting = now ++ later
      ∧ p.rank id ≤ bound ∧ (∀ d ∈ now, p.rank d ≤ bound) ∧ (∀ d ∈ later, p.rank d < bound)
      ∧ now.length + 1 + bound * p.size ≤ left := by
  obtain ⟨now, later, bound, split, high, low, enough⟩ := round
  cases now with
  | cons first now =>
    obtain ⟨rfl, rfl⟩ := List.cons.inj split
    obtain ⟨own, high⟩ := List.forall_mem_cons.mp high
    exact ⟨now, later, bound, rfl, own, high, low, enough⟩
  | nil =>
    rw [List.nil_append] at split
    subst split
    obtain ⟨own, low⟩ := List.forall_mem_cons.mp low
    have few := length_le_size acyclic distinct live
    obtain ⟨lower, rfl⟩ := Nat.exists_eq_succ_of_ne_zero (Nat.ne_zero_of_lt own)
    refine ⟨waiting, [], lower, (List.append_nil _).symm, Nat.le_of_lt_succ own,
      fun d member => Nat.le_of_lt_succ (low d member), nofun, ?_⟩
    rw [Nat.succ_mul, List.length_nil] at enough
    rw [List.length_cons] at few
    omega

/-- What reads a node comes to wait behind its round. -/
private theorem InRound.pass (acyclic : p.Acyclic) (distinct : (id :: waiting).Nodup)
    (live : ∀ d ∈ id :: waiting, ∃ n, p.node? d = some n) {left : Nat}
    (round : p.InRound (id :: waiting) left) {n : Node} (found : p.node? id = some n) :
    ∃ left', left' < left ∧ p.InRound (n.parents.foldl Node.addOnce waiting) left' := by
  obtain ⟨now, later, bound, rfl, own, high, low, enough⟩ := round.first acyclic distinct live
  obtain ⟨fresh, grown, _, new⟩ := Node.exists_foldl_addOnce n.parents (now ++ later)
  refine ⟨now.length + bound * p.size, by omega, now, later ++ fresh, bound, ?_, high, fun d member => ?_, le_rfl⟩
  · rw [grown, List.append_assoc]
  · rcases List.mem_append.mp member with old | reader
    · exact low d old
    · have edge := (acyclic.mem_parents_iff found).mp (new d reader).1
      exact Nat.lt_of_lt_of_le (acyclic.rank_lt_of_edge edge) own

private theorem cube_step (m : Nat) : (m - 1) ^ 3 + m * m ≤ m ^ 3 := by
  cases m with
  | zero => exact le_rfl
  | succ k =>
    calc k ^ 3 + (k + 1) * (k + 1) = k * (k * k) + (k + 1) * (k + 1) := by ring
      _ ≤ k * ((k + 1) * (k + 1)) + (k + 1) * (k + 1) := by
        apply Nat.add_le_add_right
        exact Nat.mul_le_mul_left k (Nat.mul_le_mul (Nat.le_succ k) (Nat.le_succ k))
      _ = (k + 1) ^ 3 := by ring

end Rounds

end Plan

/-- A compression on its way, with a limit on the steps it will have made at its end. -/
structure Draining (limit : Nat) (c : Compressing) : Prop where
  acyclic : c.plan.Acyclic
  placed : c.plan.Placed
  distinct : c.waiting.Nodup
  live : ∀ id ∈ c.waiting, ∃ n, c.plan.node? id = some n
  bounded : ∃ left, c.plan.InRound c.waiting left
    ∧ c.report.steps + ((c.plan.size - 1) ^ 3 + left) ≤ limit

namespace Draining

variable {limit : Nat}

theorem start (acyclic : p.Acyclic) (placed : p.Placed) (root : NodeId) :
    Draining (p.size ^ 3) (.start p root) := by
  obtain ⟨distinct, live⟩ := p.leaves_distinct root
  refine ⟨acyclic, placed, distinct, live, p.size * p.size, .begin acyclic distinct live, ?_⟩
  exact (Nat.zero_add _).trans_le (cube_step p.size)

/-- A node that stays is taken from the list, and what reads it waits. -/
private theorem pass (draining : Draining limit c) (next : c.waiting = id :: waiting) {n : Node}
    (found : c.plan.node? id = some n) (failed : List NodeId) (violations : List PlanError) :
    Draining limit ⟨c.plan, n.parents.foldl Node.addOnce waiting, failed,
      ⟨c.report.merged, violations, c.report.steps + 1⟩⟩ := by
  obtain ⟨left, round, enough⟩ := draining.bounded
  have distinct := draining.distinct
  have live := draining.live
  rw [next] at distinct live round
  obtain ⟨left', less, round'⟩ := round.pass draining.acyclic distinct live found
  refine ⟨draining.acyclic, draining.placed, Node.nodup_foldl_addOnce _ (List.nodup_cons.mp distinct).2,
    fun d member => ?_, left', round', by simp only; omega⟩
  rcases Node.mem_foldl_addOnce.mp member with before | reader
  · exact live d (List.mem_cons_of_mem _ before)
  · obtain ⟨m, there, _⟩ := draining.acyclic.upwards found reader
    exact ⟨m, there⟩

/-- After a merge all that waits is there, though the child is not. -/
private theorem live_folded {up : NodeId} {child parent : Node} {nodes : AscendingMap NodeId Node}
    (folding : Folding p id up child parent) (folded : Folded p id up child parent nodes)
    (taken : id ∉ waiting) (live : ∀ d ∈ waiting, ∃ n, p.node? d = some n) :
    ∀ d ∈ (up :: (foldedParent id child parent).dependents ++ child.dependents).foldl Node.addOnce waiting,
      ∃ n, ({ p with nodes } : Plan).node? d = some n := by
  have stays {d : NodeId} {n : Node} (found : p.node? d = some n) (notChild : d ≠ id) :
      ∃ n, nodes.find? d = some n := by
    obtain ⟨n', found', _⟩ := folded.keeps folding found notChild
    exact ⟨n', found'⟩
  have inherits {d : NodeId} (member : d ∈ child.dependents) : ∃ n, nodes.find? d = some n := by
    obtain ⟨n, found⟩ := folding.acyclic.live_of_edge ⟨child, folding.childFound, member⟩
    exact stays found (folding.apart member).1
  intro d member
  rcases Node.mem_foldl_addOnce.mp member with before | new
  · obtain ⟨n, found⟩ := live d before
    exact stays found (ne_of_mem_of_not_mem before taken)
  rcases List.mem_append.mp new with near | inherited
  · rcases List.mem_cons.mp near with rfl | dependent
    · exact ⟨_, folded.folded⟩
    · obtain ⟨notChild, own | inherited⟩ := folding.mem_dependents.mp dependent
      · obtain ⟨n, found⟩ := folding.acyclic.live_of_edge ⟨parent, folding.parentFound, own⟩
        exact stays found notChild
      · exact inherits inherited
  · exact inherits inherited

/-- The node that is gone pays for the rounds that begin with its merge. -/
private theorem merge (draining : Draining limit c) (next : c.waiting = id :: waiting) {up : NodeId}
    {child parent : Node} {nodes : AscendingMap NodeId Node} (folding : Folding c.plan id up child parent)
    (folded : Folded c.plan id up child parent nodes) :
    Draining limit ⟨{ c.plan with nodes },
      (up :: (foldedParent id child parent).dependents ++ child.dependents).foldl Node.addOnce waiting,
      c.failed, ⟨c.report.merged ++ [(id, up)], c.report.violations, c.report.steps + 1⟩⟩ := by
  obtain ⟨left, round, enough⟩ := draining.bounded
  have distinct := draining.distinct
  have live := draining.live
  rw [next] at distinct live round
  obtain ⟨now, later, bound, _, _, _, _, atLeast⟩ := round.first draining.acyclic distinct live
  obtain ⟨taken, distinct⟩ := List.nodup_cons.mp distinct
  have acyclic := folded.acyclic folding
  have distinct' := Node.nodup_foldl_addOnce
    (up :: (foldedParent id child parent).dependents ++ child.dependents) distinct
  have live' := live_folded folding folded taken fun d member => live d (List.mem_cons_of_mem _ member)
  have smaller : nodes.keys.length + 1 = c.plan.size := by
    rw [← length_nodeIds]
    exact (folded.nodeIds_perm folding).length_eq
  have size : ({ c.plan with nodes } : Plan).size = c.plan.size - 1 := by
    rw [← smaller, ← length_nodeIds]
    rfl
  refine ⟨acyclic, folded.placed folding draining.placed, distinct', live', _, .begin acyclic distinct' live', ?_⟩
  have cube := cube_step (c.plan.size - 1)
  rw [size]
  simp only
  omega

theorem next (draining : Draining limit c) (next : c.Next c') : Draining limit c' := by
  obtain ⟨id, waiting, first, rfl⟩ := next
  obtain ⟨n, found⟩ := draining.live id (first ▸ List.mem_cons_self)
  have pop : c.Pop id waiting (c.step id waiting) := pop_of_step draining.acyclic found
  generalize c.step id waiting = c' at pop
  cases pop with
  | passed found failed violations => exact draining.pass first found failed violations
  | folded folding folded => exact draining.merge first folding folded

theorem of_steps (acyclic : p.Acyclic) (placed : p.Placed)
    (steps : ReflTransGen Next (.start p root) c) : Draining (p.size ^ 3) c := by
  induction steps with
  | refl => exact .start acyclic placed root
  | tail _ step ih => exact ih.next step

/-- While something waits, the limit is not reached. -/
private theorem steps_lt (draining : Draining limit c) (next : c.waiting = id :: waiting) :
    c.report.steps < limit := by
  obtain ⟨left, round, enough⟩ := draining.bounded
  have distinct := draining.distinct
  have live := draining.live
  rw [next] at distinct live round
  obtain ⟨_, _, _, _, _, _, _, atLeast⟩ := round.first draining.acyclic distinct live
  omega

private theorem steps_next (draining : Draining limit c) (next : c.waiting = id :: waiting) :
    (c.step id waiting).report.steps = c.report.steps + 1 := by
  obtain ⟨n, found⟩ := draining.live id (next ▸ List.mem_cons_self)
  have pop : c.Pop id waiting (c.step id waiting) := pop_of_step draining.acyclic found
  generalize c.step id waiting = c' at pop
  cases pop with
  | passed => rfl
  | folded => rfl

/-- With as many rounds as the limit leaves, the list runs empty. -/
private theorem run (draining : Draining limit c) (fuel : Nat) (enough : limit ≤ c.report.steps + fuel) :
    ReflTransGen Next c (c.run fuel) ∧ (c.run fuel).waiting = [] := by
  induction fuel generalizing c with
  | zero =>
    refine ⟨.refl, ?_⟩
    cases first : c.waiting with
    | nil => exact first
    | cons id waiting =>
      have below := draining.steps_lt first
      omega
  | succ fuel ih =>
    unfold Compressing.run
    cases first : c.waiting with
    | nil => exact ⟨.refl, first⟩
    | cons id waiting =>
      have step : c.Next (c.step id waiting) := ⟨id, waiting, first, rfl⟩
      have counted := draining.steps_next first
      obtain ⟨steps, empty⟩ := ih (draining.next step) (by omega)
      exact ⟨.head step steps, empty⟩

end Draining

namespace Plan

/-- Compression steps until nothing waits. -/
theorem Acyclic.compress_runs (acyclic : p.Acyclic) (placed : p.Placed) (rooted : p.root = some root) :
    ∃ done, ReflTransGen Next (.start p root) done ∧ done.waiting = []
      ∧ p.compress = (done.plan, done.report) := by
  have fewer : p.size ^ 3 ≤ p.rounds * p.rounds * p.rounds := by
    have small : p.size ≤ p.rounds := by
      unfold rounds
      omega
    calc p.size ^ 3 = p.size * p.size * p.size := by ring
      _ ≤ p.rounds * p.rounds * p.rounds := Nat.mul_le_mul (Nat.mul_le_mul small small) small
  have enough : p.size ^ 3 ≤ (start p root).report.steps + p.rounds * p.rounds * p.rounds :=
    fewer.trans (Nat.le_add_left _ _)
  obtain ⟨steps, empty⟩ := (Draining.start acyclic placed root).run _ enough
  refine ⟨_, steps, empty, ?_⟩
  unfold compress
  rw [rooted]
  rfl

/-- Compression ends on every plan without cycles whose queries hold placeholders for dependents only:
nothing waits after at most as many steps as the cube of the number of nodes. On the way edges stay
recorded at both ends, each once, and close no cycle, and no query comes to hold a placeholder for its own
node, which a replacement in place could not get to the end of. -/
theorem Acyclic.compress_ends (acyclic : p.Acyclic)
    (placed : ∀ {id n ref}, p.node? id = some n → ref ∈ n.query.placeholders → ref.node ∈ n.dependents) :
    p.root = none ∧ p.compress = (p, ⟨[], [], 0⟩)
      ∨ ∃ root done, p.root = some root ∧ ReflTransGen Next (.start p root) done ∧ done.waiting = []
        ∧ p.compress = (done.plan, done.report) ∧ done.report.steps ≤ p.size ^ 3
        ∧ ∀ c, ReflTransGen Next (.start p root) c → c.plan.Acyclic
          ∧ ∀ id n, c.plan.node? id = some n → ∀ ref ∈ n.query.placeholders, ref.node ≠ id := by
  have placed' : p.Placed := fun _ _ _ found member => .inl (placed found member)
  cases rooted : p.root with
  | none =>
    refine .inl ⟨rfl, ?_⟩
    unfold compress
    rw [rooted]
  | some root =>
    obtain ⟨done, steps, empty, outcome⟩ := acyclic.compress_runs placed' rooted
    obtain ⟨left, _, enough⟩ := (Draining.of_steps acyclic placed' steps).bounded
    refine .inr ⟨root, done, rfl, steps, empty, outcome, by omega, fun c reached => ?_⟩
    have draining := Draining.of_steps acyclic placed' reached
    exact ⟨draining.acyclic, fun id n found ref member => draining.placed.not_own draining.acyclic found member⟩

/-- The sample keeps its shared node, while one of the aggregates is folded into the root. -/
theorem sharedPlan_compress_ends : sharedPlan.Acyclic ∧ sharedPlan.compress.2.merged = [(⟨1⟩, ⟨0⟩)]
    ∧ ∃ done, ReflTransGen Next (.start sharedPlan ⟨0⟩) done ∧ done.waiting = []
      ∧ sharedPlan.compress = (done.plan, done.report) ∧ done.plan.Acyclic := by
  have rooted : sharedPlan.root = some ⟨0⟩ := rfl
  obtain ⟨paired, founded, _⟩ := sharedPlan_stored.of_check rooted sharedPlan_checked
  have acyclic : sharedPlan.Acyclic := ⟨paired, not_path_self founded⟩
  have entries : ∀ entry ∈ sharedPlan.nodes.entries, ∀ ref ∈ entry.2.query.placeholders,
      ref.node ∈ entry.2.dependents := by decide +kernel
  have ends := acyclic.compress_ends fun found member =>
    entries _ (AscendingMap.mem_entries_of_find? found) _ member
  rcases ends with ⟨unbuilt, _⟩ | ⟨root, done, same, steps, empty, outcome, _, kept⟩
  · exact nomatch unbuilt.symm.trans rooted
  · cases rooted.symm.trans same
    exact ⟨acyclic, by decide +kernel, done, steps, empty, outcome, (kept done steps).1⟩

end Plan

end ApproxQuery
