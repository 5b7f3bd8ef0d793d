import ApproxQuery.Plan.Compress
import ApproxQuery.Proofs.Plan.Sound

/-! The nodes that compression starts with: in a sound plan, all that read nothing. -/
namespace ApproxQuery.Plan

open Relation

variable {p : Plan} {tops seen front : List NodeId}

/-- The search gives nodes of the plan that are in front or not seen yet, each once. -/
private theorem leavesFrom_distinct (p : Plan) (fuel : Nat) (seen front : List NodeId)
    (distinct : front.Nodup) (within : ∀ id ∈ front, id ∈ seen) :
    (p.leavesFrom fuel seen front).Nodup ∧ ∀ id ∈ p.leavesFrom fuel seen front,
      (id ∈ front ∨ id ∉ seen) ∧ ∃ n, p.node? id = some n := by
  induction fuel generalizing seen front with
  | zero => exact ⟨List.nodup_nil, nofun⟩
  | succ fuel ih =>
    cases front with
    | nil => exact ⟨List.nodup_nil, nofun⟩
    | cons first rest =>
      obtain ⟨notRest, distinctRest⟩ := List.nodup_cons.mp distinct
      have withinRest (id) (member : id ∈ rest) := within id (List.mem_cons_of_mem _ member)
      rw [leavesFrom]
      cases found : p.node? first with
      | none =>
        refine (ih seen rest distinctRest withinRest).imp_right fun each id member => ?_
        exact (each id member).imp_left (.imp_left (List.mem_cons_of_mem _))
      | some n =>
        obtain ⟨fresh, grown, freshOnce, new⟩ := Node.exists_foldl_addOnce n.dependents seen
        simp only [grown, List.drop_left]
        obtain ⟨distinctLater, later⟩ := ih (seen ++ fresh) (rest ++ fresh)
          (List.nodup_append.mpr ⟨distinctRest, freshOnce, fun id old _ member same =>
            (new _ member).2 (same ▸ withinRest id old)⟩)
          fun id member => (List.mem_append.mp member).elim
            (fun old => List.mem_append_left _ (withinRest id old)) (List.mem_append_right _)
        -- What is given later is not the first node: it was seen, and is not in front again.
        have notFirst : first ∉ p.leavesFrom fuel (seen ++ fresh) (rest ++ fresh) := fun member => by
          have inSeen := within first List.mem_cons_self
          rcases (later first member).1 with ahead | unseen
          · exact (List.mem_append.mp ahead).elim notRest fun among => (new first among).2 inSeen
          · exact unseen (List.mem_append_left _ inSeen)
        have older (id) (member : id ∈ p.leavesFrom fuel (seen ++ fresh) (rest ++ fresh)) :
            (id ∈ first :: rest ∨ id ∉ seen) ∧ ∃ n, p.node? id = some n := by
          refine (later id member).imp_left fun place => ?_
          rcases place with ahead | unseen
          · exact (List.mem_append.mp ahead).imp (List.mem_cons_of_mem _) fun among => (new id among).2
          · exact .inr fun before => unseen (List.mem_append_left _ before)
        split
        · refine ⟨List.nodup_cons.mpr ⟨notFirst, distinctLater⟩, fun id member => ?_⟩
          rcases List.mem_cons.mp member with rfl | member
          · exact ⟨.inl List.mem_cons_self, n, found⟩
          · exact older id member
        · exact ⟨distinctLater, older⟩

/-- From the root the search gives nodes of the plan, each once. -/
theorem leaves_distinct (p : Plan) (root : NodeId) : (p.leavesFrom p.rounds [root] [root]).Nodup
    ∧ ∀ id ∈ p.leavesFrom p.rounds [root] [root], ∃ n, p.node? id = some n := by
  obtain ⟨distinct, each⟩ := p.leavesFrom_distinct p.rounds [root] [root]
    (List.nodup_singleton root) fun _ member => member
  exact ⟨distinct, fun id member => (each id member).2⟩

/-- A breadth-first search on its way through a forest. What is in front is seen, and nothing below
it is. -/
structure Searching (p : Plan) (seen front : List NodeId) : Prop where
  distinct : front.Nodup
  live : ∀ id ∈ front, ∃ n, p.node? id = some n
  within : ∀ id ∈ front, id ∈ seen
  below : ∀ id ∈ front, ∀ d, p.Edge id d → d ∉ seen
  above : ∀ id d, p.Edge id d → d ∈ seen → id ∈ seen

namespace Searching

/-- What the first node in front reads takes its place at the end. -/
private theorem step (sound : p.Sound tops) {id : NodeId} {n : Node}
    (searching : Searching p seen (id :: front)) (found : p.node? id = some n) :
    Searching p (seen ++ n.dependents) (front ++ n.dependents) := by
  obtain ⟨notFront, distinct⟩ := List.nodup_cons.mp searching.distinct
  -- In a forest nothing that the first node reads can be met from elsewhere.
  have fresh {d} (member : d ∈ n.dependents) : d ∉ seen :=
    searching.below id List.mem_cons_self d ⟨n, found, member⟩
  have reader {up d} (edge : p.Edge up d) (member : d ∈ n.dependents) : up = id :=
    sound.edge_unique edge ⟨n, found, member⟩
  constructor
  case distinct =>
    refine List.nodup_append.mpr ⟨distinct, (sound.consistent found).distinct, ?_⟩
    rintro d inFront _ member rfl
    exact fresh member (searching.within d (List.mem_cons_of_mem _ inFront))
  case live =>
    intro d member
    rcases List.mem_append.mp member with inFront | dependent
    · exact searching.live d (List.mem_cons_of_mem _ inFront)
    · obtain ⟨m, there, _⟩ := sound.reads found dependent
      exact ⟨m, there⟩
  case within =>
    intro d member
    rcases List.mem_append.mp member with inFront | dependent
    · exact List.mem_append_left _ (searching.within d (List.mem_cons_of_mem _ inFront))
    · exact List.mem_append_right _ dependent
  case below =>
    intro up member d edge inside
    rcases List.mem_append.mp member with inFront | dependent
    · rcases List.mem_append.mp inside with old | new
      · exact searching.below up (List.mem_cons_of_mem _ inFront) d edge old
      · exact notFront (reader edge new ▸ inFront)
    · rcases List.mem_append.mp inside with old | new
      · exact fresh dependent (searching.above up d edge old)
      · have loop : p.Edge id id := ⟨n, found, reader edge new ▸ dependent⟩
        exact irrefl_of (· < ·) id (sound.lt_of_edge loop)
  case above =>
    intro up d edge inside
    rcases List.mem_append.mp inside with old | new
    · exact List.mem_append_left _ (searching.above up d edge old)
    · rw [reader edge new]
      exact List.mem_append_left _ (searching.within id List.mem_cons_self)

private theorem leavesFrom_cons (sound : p.Sound tops) {id : NodeId} {n : Node}
    (searching : Searching p seen (id :: front)) (found : p.node? id = some n) (fuel : Nat) :
    p.leavesFrom (fuel + 1) seen (id :: front)
      = (if n.dependents.isEmpty then [id] else [])
        ++ p.leavesFrom fuel (seen ++ n.dependents) (front ++ n.dependents) := by
  have grown := Node.foldl_addOnce_eq (sound.consistent found).distinct fun d member =>
    searching.below id List.mem_cons_self d ⟨n, found, member⟩
  simp only [leavesFrom, found, grown, List.drop_left]

/-- The search comes to every leaf below the front. -/
private theorem mem_leavesFrom (sound : p.Sound tops) (fuel : Nat) (searching : Searching p seen front)
    (enough : front.length + (p.nodeIds.filter fun d => d ∉ seen).length ≤ fuel) {id leaf : NodeId}
    {n : Node} (inFront : id ∈ front) (path : ReflTransGen p.Edge id leaf)
    (found : p.node? leaf = some n) (none : n.dependents = []) :
    leaf ∈ p.leavesFrom fuel seen front := by
  induction fuel generalizing seen front id with
  | zero =>
    have empty : front = [] := List.length_eq_zero_iff.mp (by omega)
    rw [empty] at inFront
    cases inFront
  | succ fuel ih =>
    obtain ⟨first, rest, rfl⟩ := List.exists_cons_of_ne_nil (List.ne_nil_of_mem inFront)
    obtain ⟨m, there⟩ := searching.live first List.mem_cons_self
    have enough' : (rest ++ m.dependents).length
        + (p.nodeIds.filter fun d => d ∉ seen ++ m.dependents).length ≤ fuel := by
      have grown {d} : d ∈ seen ++ m.dependents ↔ d ∈ m.dependents ∨ d ∈ seen :=
        List.mem_append.trans or_comm
      have unseen (d) (member : d ∈ m.dependents) : d ∈ p.nodeIds ∧ d ∉ seen := by
        obtain ⟨m', live, _⟩ := sound.reads there member
        exact ⟨sound.paired.mem_nodeIds.mpr ⟨m', live⟩,
          searching.below first List.mem_cons_self d ⟨m, there, member⟩⟩
      have counted := length_unseen sound.ordered.nodup_keys (sound.consistent there).distinct unseen grown
      have same : p.nodes.keys = p.nodeIds := rfl
      rw [same] at counted
      rw [List.length_cons] at enough
      rw [List.length_append]
      omega
    have later {up} (member : up ∈ rest ++ m.dependents) (path : ReflTransGen p.Edge up leaf) :
        leaf ∈ p.leavesFrom fuel (seen ++ m.dependents) (rest ++ m.dependents) :=
      ih (searching.step sound there) enough' member path
    rw [searching.leavesFrom_cons sound there, List.mem_append]
    rcases List.mem_cons.mp inFront with rfl | inRest
    · rcases ReflTransGen.cases_head path with rfl | ⟨d, ⟨m', there', reads⟩, below⟩
      · cases there.symm.trans found
        rw [none]
        exact .inl List.mem_cons_self
      · cases there.symm.trans there'
        exact .inr (later (List.mem_append_right _ reads) below)
    · exact .inr (later (List.mem_append_left _ inRest) path)

end Searching

/-- The search starts with the root. -/
private theorem Sound.searching {root : NodeId} (sound : p.Sound [root]) : Searching p [root] [root] := by
  obtain ⟨m, there, _⟩ := sound.top root List.mem_cons_self
  constructor
  case distinct => exact List.nodup_singleton root
  case live =>
    intro up member
    exact ⟨m, List.mem_singleton.mp member ▸ there⟩
  case within => exact fun _ member => member
  case below => exact fun up _ d ⟨n, above, reads⟩ => sound.not_top above reads
  case above =>
    intro up d ⟨n, above, reads⟩ isTop
    exact absurd isTop (sound.not_top above reads)

/-- From the root of a sound plan the search comes to all leaves. -/
theorem Sound.mem_leaves {root : NodeId} (sound : p.Sound [root]) {id : NodeId} {n : Node}
    (found : p.node? id = some n) (none : n.dependents = []) :
    id ∈ p.leavesFrom p.rounds [root] [root] := by
  have path : ReflTransGen p.Edge root id := by
    by_cases isRoot : id = root
    · exact isRoot ▸ .refl
    · obtain ⟨top, isTop, path⟩ := sound.reached id found (by simpa using isRoot)
      exact List.mem_singleton.mp isTop ▸ path.to_reflTransGen
  refine sound.searching.mem_leavesFrom sound p.rounds ?_ List.mem_cons_self path found none
  have fewer := List.length_filter_le (fun d => decide (d ∉ [root])) p.nodeIds
  have ids := p.length_nodeIds
  unfold rounds
  rw [List.length_singleton]
  omega

end ApproxQuery.Plan
