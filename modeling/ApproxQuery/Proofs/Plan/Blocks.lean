import ApproxQuery.Proofs.Plan.Ownership
import ApproxQuery.Proofs.Plan.Sound

/-! The blocks of a sound plan: each is a root with all nodes it leads to, and no two share a
node. -/
namespace ApproxQuery

open Relation

/-- A block that owns all that its root leads to, parents before what they read. The root is no
projection. -/
structure Block.Whole (b : Block) (p : Plan) : Prop where
  live : ∃ n, p.node? b.root = some n ∧ n.kind ≠ .projection
  external : b.external = []
  distinct : b.members.Nodup
  members : ∀ {id}, id ∈ b.members ↔ TransGen p.Edge b.root id
  order : b.members.Pairwise fun earlier later => ¬ p.Edge later earlier

theorem Block.not_mem_ids {b : Block} {id : NodeId} (notRoot : id ≠ b.root) (notMember : id ∉ b.members) :
    id ∉ b.ids := fun inside => (List.mem_cons.mp inside).elim notRoot notMember

theorem Block.Whole.mem_ids {b : Block} {p : Plan} (whole : b.Whole p) {id : NodeId} :
    id ∈ b.ids ↔ ReflTransGen p.Edge b.root id := by
  rw [ids, List.mem_cons, whole.members, reflTransGen_iff_eq_or_transGen]

/-- A block stays whole where its root is left, and its nodes read what they read. -/
theorem Block.Whole.of_edges {b : Block} {p p' : Plan} (whole : b.Whole p)
    (live : ∃ n, p'.node? b.root = some n ∧ n.kind ≠ .projection)
    (same : ∀ {id d}, id ∈ b.ids → (p'.Edge id d ↔ p.Edge id d)) : b.Whole p' where
  live := live
  external := whole.external
  distinct := whole.distinct
  members := by
    intro id
    rw [whole.members]
    have inside {x} (path : TransGen p.Edge b.root x) : x ∈ b.ids :=
      whole.mem_ids.mpr path.to_reflTransGen
    have root : b.root ∈ b.ids := List.mem_cons_self
    constructor
    · intro path
      induction path with
      | single edge => exact .single ((same root).mpr edge)
      | tail path edge ih => exact ih.tail ((same (inside path)).mpr edge)
    · intro path
      induction path with
      | single edge => exact .single ((same root).mp edge)
      | tail _ edge ih => exact ih.tail ((same (inside ih)).mp edge)
  order := whole.order.imp_of_mem fun _ later apart edge =>
    apart ((same (List.mem_cons_of_mem _ later)).mp edge)

namespace Plan

variable {p : Plan} {tops : List NodeId}

namespace Sound

/-- All nodes of a whole block are there. -/
theorem live_of_mem_ids (sound : p.Sound tops) {b : Block} (whole : b.Whole p) {id : NodeId}
    (member : id ∈ b.ids) : ∃ n, p.node? id = some n := by
  rcases ReflTransGen.cases_tail (whole.mem_ids.mp member) with same | ⟨_, _, n, found, reads⟩
  · obtain ⟨n, there, _⟩ := whole.live
    exact ⟨n, same ▸ there⟩
  · obtain ⟨m, there, _⟩ := sound.reads found reads
    exact ⟨m, there⟩

theorem root_not_mem_members (sound : p.Sound tops) {b : Block} (whole : b.Whole p) :
    b.root ∉ b.members := fun member =>
  irrefl_of (· < ·) b.root (sound.lt_of_path (whole.members.mp member))

end Sound

section Blocks

/-- An exact block of a sound plan is whole: no node below its root has a parent elsewhere. -/
private theorem Sound.whole_of_exact (sound : p.Sound tops) {b : Block} (exact : b.Exact p)
    (live : ∃ n, p.node? b.root = some n ∧ n.kind ≠ .projection) : b.Whole p := by
  have owned : p.Owned b.root fun id => TransGen p.Edge b.root id := by
    refine ⟨fun path => path, fun {id n parent} path found member => ?_⟩
    obtain ⟨up, before, last⟩ := TransGen.tail'_iff.mp path
    have edge := (sound.paired.mem_parents_iff found).mp member
    exact reflTransGen_iff_eq_or_transGen.mp (sound.edge_unique last edge ▸ before)
  have members {id} : id ∈ b.members ↔ TransGen p.Edge b.root id := ⟨exact.owned.below, exact.largest owned⟩
  refine ⟨live, List.eq_nil_iff_forall_not_mem.mpr fun d outside => ?_, (List.nodup_cons.mp exact.distinct).2,
    members, exact.order⟩
  obtain ⟨notInside, id, inside, edge⟩ := exact.external.mp outside
  refine notInside (List.mem_cons_of_mem _ (members.mpr (TransGen.tail' ?_ edge)))
  exact reflTransGen_iff_eq_or_transGen.mpr ((List.mem_cons.mp inside).imp_right members.mp)

private theorem Aggregates.not_projection {id : NodeId} (aggregates : p.Aggregates id) :
    ∃ n, p.node? id = some n ∧ n.kind ≠ .projection := by
  obtain ⟨n, found, kind⟩ := aggregates
  exact ⟨n, found, fun same => nomatch kind.symm.trans same⟩

/-- The blocks of a sound plan are whole, one for each of its top aggregate nodes, and no two share a
node. -/
theorem Sound.blocks_tops {root : NodeId} (sound : p.Sound [root]) (rooted : p.root = some root) :
    ∃ blocks, p.blocks = .ok blocks ∧ (blocks.map Block.root).Nodup
      ∧ (∀ id, id ∈ blocks.map Block.root ↔ p.TopAggregate id) ∧ (∀ b ∈ blocks, b.Whole p)
      ∧ blocks.Pairwise fun b b' => b.ids.Disjoint b'.ids := by
  obtain ⟨n, found, none, _⟩ := sound.top root List.mem_cons_self
  obtain ⟨blocks, made, once, starts, exact, apart⟩ :=
    sound.paired.blocks_exact sound.founded rooted ⟨n, found, none⟩
  refine ⟨blocks, made, once, starts, fun b member => ?_, apart⟩
  exact sound.whole_of_exact (exact b member) ((starts _).mp (List.mem_map_of_mem member)).2.not_projection

/-- The blocks of a sound plan are whole, and no two share a node. -/
theorem Sound.blocks_ok {root : NodeId} (sound : p.Sound [root]) (rooted : p.root = some root) :
    ∃ blocks, p.blocks = .ok blocks ∧ (∀ b ∈ blocks, b.Whole p)
      ∧ blocks.Pairwise fun b b' => b.ids.Disjoint b'.ids := by
  obtain ⟨blocks, made, _, _, wholes, apart⟩ := sound.blocks_tops rooted
  exact ⟨blocks, made, wholes, apart⟩

/-- A plan whose root aggregates is one block. -/
theorem Sound.single_block {root : NodeId} {n : Node} (sound : p.Sound [root]) (rooted : p.root = some root)
    (found : p.node? root = some n) (kind : n.kind = .aggregate) :
    ∃ b, p.blocks = .ok [b] ∧ b.root = root ∧ b.Whole p := by
  obtain ⟨blocks, made, once, starts, wholes, _⟩ := sound.blocks_tops rooted
  have only (id) : id ∈ blocks.map Block.root ↔ id ∈ [root] := by
    rw [starts, List.mem_singleton]
    constructor
    · rintro ⟨⟨_, same, path⟩, _⟩
      cases rooted.symm.trans same
      rcases ReflTransGen.cases_head path with same | ⟨_, ⟨m, there, projection, _⟩, _⟩
      · exact same.symm
      · cases found.symm.trans there
        exact nomatch kind.symm.trans projection
    · rintro rfl
      exact ⟨⟨id, rooted, .refl⟩, n, found, kind⟩
  have roots := (List.perm_ext_iff_of_nodup once (List.nodup_singleton root)).mpr only
  obtain ⟨b, rfl, own⟩ := List.map_eq_singleton_iff.mp (List.perm_singleton.mp roots)
  exact ⟨b, made, own, wholes b List.mem_cons_self⟩

end Blocks

end Plan

end ApproxQuery
