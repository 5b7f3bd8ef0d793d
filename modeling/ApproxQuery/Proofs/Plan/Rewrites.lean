import ApproxQuery.Proofs.Estimate.Scaling
import ApproxQuery.Proofs.Plan.Completion
import ApproxQuery.Proofs.Plan.Reachable
import ApproxQuery.Proofs.Scramble.Catalog

/-! What all reachable plans have in common: what building gives, and every merge and every conversion
of a block preserves. -/
namespace ApproxQuery.Plan

/-- Merges and conversions in sound plans preserve the property. -/
structure Preserved (P : Plan → Prop) : Prop where
  merged : ∀ {p tops childId parentId child parent nodes},
    Merging p tops childId parentId child parent →
    (inlineInto childId child.query parent.query).2 ≠ 0 →
    Merged p childId parentId child parent nodes → P p → P { p with nodes }
  converted : ∀ {p : Plan} {tops b root scramble inlined nodes}, p.Sound tops → b.Whole p →
    Converts p b root scramble inlined nodes → P p → P { p with nodes }

variable {P : Plan → Prop} {p : Plan} {tops : List NodeId}

namespace Preserved

theorem compress (preserved : Preserved P) (sound : p.Sound tops) (holds : P p) : P p.compress.1 := by
  refine (sound.compress_induction holds fun {p' childId parentId} sound' target before => ?_).2
  obtain ⟨child, parent, merging⟩ := sound'.merging target
  by_cases unread : (inlineInto childId child.query parent.query).2 = 0
  · rw [merging.merge_error unread]
    exact before
  · obtain ⟨nodes, done, merged⟩ := merging.merge_ok unread
    rw [done]
    exact preserved.merged merging unread merged before

theorem convert (preserved : Preserved P) {b : Block} (sound : p.Sound tops) (whole : b.Whole p)
    (holds : P p) : P (Plan.convert b p).2 := by
  rcases sound.convert_cases whole with ⟨answer, same, _⟩ | ⟨root, scramble, inlined, nodes, converts, done⟩
  · rw [same]
    exact holds
  · rw [done]
    exact preserved.converted sound whole converts holds

private theorem mapM_convert (preserved : Preserved P) {blocks : List Block} (sound : p.Sound tops)
    (wholes : ∀ b ∈ blocks, b.Whole p) (apart : blocks.Pairwise fun b b' => b.ids.Disjoint b'.ids)
    (holds : P p) : P ((blocks.mapM Plan.convert : PlanM _) p).2 := by
  induction blocks generalizing p with
  | nil => exact holds
  | cons b later ih =>
    obtain ⟨first, apartLater⟩ := List.pairwise_cons.mp apart
    have whole := wholes b List.mem_cons_self
    obtain ⟨kept, stay⟩ := sound.keeps_convert whole
    have holds' := preserved.convert sound whole holds
    have wholes' (other) (member : other ∈ later) : other.Whole (Plan.convert b p).2 :=
      stay other (first other member) (wholes other (List.mem_cons_of_mem _ member))
    have rest := ih kept.sound wholes' apartLater holds'
    rw [List.mapM_cons]
    generalize outcome : Plan.convert b p = result at rest holds'
    obtain ⟨answer, p'⟩ := result
    cases answer with
    | error e =>
      rw [bind_error outcome]
      exact holds'
    | ok c =>
      rw [bind_ok outcome]
      generalize done : (later.mapM Plan.convert : PlanM _) p' = result at rest
      obtain ⟨answers, p''⟩ := result
      cases answers with
      | error e =>
        rw [bind_error done]
        exact rest
      | ok cs =>
        rw [bind_ok done]
        exact rest

theorem makeProgressive {root : NodeId} (preserved : Preserved P) (sound : p.Sound [root])
    (rooted : p.root = some root) (holds : P p) : P (Plan.makeProgressive p).2 := by
  obtain ⟨blocks, found, wholes, apart⟩ := sound.blocks_ok rooted
  rw [makeProgressive_eq found]
  exact preserved.mapM_convert sound wholes apart holds

end Preserved

/-- What holds of plans that have been built, and merges and conversions preserve, holds of every
reachable plan. -/
theorem Reachable.induction (reachable : p.Reachable) (preserved : Preserved P)
    (built : ∀ {start p : Plan} {q root}, start.nodes = .empty → q.placeholders = [] →
      start.build q = .ok (root, p) → P p) : P p := by
  induction reachable with
  | built empty closed done => exact built empty closed done
  | compressed before ih =>
    obtain ⟨root, _, sound⟩ := before.sound
    exact preserved.compress sound ih
  | progressive before ih =>
    obtain ⟨root, rooted, sound⟩ := before.sound
    exact preserved.makeProgressive sound rooted ih

/-- The scratch tables bear the plan's own names, with a number each. -/
theorem Reachable.numbered (reachable : p.Reachable) :
    ∀ {id n}, p.node? id = some n → ∃ k, n.scratch = p.numberedTable k := by
  refine reachable.induction (P := fun p => ∀ {id n}, p.node? id = some n →
    ∃ k, n.scratch = p.numberedTable k) ⟨?_, ?_⟩ ?_
  · intro p tops childId parentId child parent nodes merging _ merged before id n found
    obtain ⟨m, there, same, _⟩ := merged.before merging found
    obtain ⟨k, named⟩ := before there
    exact ⟨k, same.trans named⟩
  · intro p tops b root scramble inlined nodes _ _ converts before id n found
    rcases converts.origin found with ⟨_, rfl⟩ | ⟨_, there⟩
    · obtain ⟨k, named⟩ := before converts.found
      exact ⟨k, named⟩
    · exact before there
  · intro start p q root empty closed built id n found
    obtain ⟨unbuilt, accepted⟩ := of_build built
    obtain ⟨_, after⟩ := decomposed empty closed
    cases (build_eq unbuilt accepted).symm.trans built
    obtain ⟨k, _, named⟩ := after.fresh.tables found
    exact ⟨k, named⟩

/-- A node is progressive over a scramble of the catalog. -/
theorem Reachable.listed (reachable : p.Reachable) : ∀ {id n scramble}, p.node? id = some n →
    n.kind = .progressive scramble → ∃ name, p.catalog.find? name = some scramble := by
  refine reachable.induction (P := fun p => ∀ {id n scramble}, p.node? id = some n →
    n.kind = .progressive scramble → ∃ name, p.catalog.find? name = some scramble) ⟨?_, ?_⟩ ?_
  · intro p tops childId parentId child parent nodes merging _ merged before id n scramble found kind
    rcases merged.origin merging found with ⟨_, rfl⟩ | ⟨_, _, m, _, _, there, rfl, _⟩
    · exact before merging.parentFound kind
    · exact before there kind
  · intro p tops b root own inlined nodes _ _ converts before id n scramble found kind
    rcases converts.origin found with ⟨_, rfl⟩ | ⟨_, there⟩
    · cases kind
      obtain ⟨t, _, scrambled⟩ := List.exists_of_findSome?_eq_some converts.progress
      exact ⟨t.name, scrambled⟩
    · exact before there kind
  · intro start p q root empty closed built id n scramble found kind
    have plain := not_progressive_of_build empty closed built id n found
    rw [Node.isProgressive, Node.scramble?, kind] at plain
    cases plain

theorem Reachable.covered (reachable : p.Reachable) (covered : p.catalog.Covered) {id : NodeId} {n : Node}
    {scramble : ScrambleMeta} (found : p.node? id = some n) (kind : n.kind = .progressive scramble) :
    scramble.Covered := by
  obtain ⟨name, listed⟩ := reachable.listed found kind
  exact covered name scramble listed

/-- A built plan keeps the catalog. -/
theorem catalog_of_build {start : Plan} {q : Query} {root : NodeId} (empty : start.nodes = .empty)
    (closed : q.placeholders = []) (built : start.build q = .ok (root, p)) : p.catalog = start.catalog := by
  obtain ⟨unbuilt, accepted⟩ := of_build built
  obtain ⟨_, after⟩ := decomposed empty closed
  cases (build_eq unbuilt accepted).symm.trans built
  exact after.frame.catalog

section Sample

/-- A catalog with one scramble, of the orders. -/
def halves : Catalog := AscendingMap.empty.insert Query.ordersInHalves.name Query.ordersInHalves

theorem halves_covered : halves.Covered := by
  intro name scramble found
  rw [halves, AscendingMap.find?_insert] at found
  split at found
  · cases found
    exact ⟨Nat.two_pos, rfl⟩
  · cases found

/-- The sample plan over that catalog. -/
def busyHalvesBuilt : Plan :=
  { (decompose busyDays (unbuilt "scratch" "0" halves)).2 with
    root := some (decompose busyDays (unbuilt "scratch" "0" halves)).1
    source := some busyDays }

/-- In it the count of the orders becomes progressive. Only the kernel runs the rewriting. -/
@[irreducible] def busyHalvesPlan : Plan := (makeProgressive busyHalvesBuilt).2

theorem busyHalves_built : (unbuilt "scratch" "0" halves).build busyDays
    = .ok ((decompose busyDays (unbuilt "scratch" "0" halves)).1, busyHalvesBuilt) :=
  build_eq rfl rfl

theorem busyHalvesBuilt_reachable : busyHalvesBuilt.Reachable := .built rfl rfl busyHalves_built

theorem busyHalvesPlan_reachable : busyHalvesPlan.Reachable := by
  unfold busyHalvesPlan
  exact .progressive busyHalvesBuilt_reachable

theorem busyHalvesPlan_covered : busyHalvesPlan.catalog.Covered := by
  obtain ⟨root, rooted, sound⟩ := busyHalvesBuilt_reachable.sound
  unfold busyHalvesPlan
  rw [(sound.keeps_makeProgressive rooted).catalog, catalog_of_build rfl rfl busyHalves_built]
  exact halves_covered

end Sample

end ApproxQuery.Plan
