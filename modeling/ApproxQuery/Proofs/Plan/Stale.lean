import ApproxQuery.Proofs.Answers
import ApproxQuery.Proofs.Plan.Rewrites

/-! Blocks that outlive the plan they were identified on. A rewrite takes a node away from such a block
or leaves it whole. So converting it later fails before anything changes, or goes as it would for a
block that has just been identified. -/
namespace ApproxQuery

open Relation

/-- Some node of the block is not there any more. -/
def Block.Broken (b : Block) (p : Plan) : Prop := ∃ id ∈ b.ids, p.node? id = none

/-- Where no node appears, a broken block stays so. -/
theorem Block.Broken.of_live {b : Block} {p p' : Plan} (broken : b.Broken p)
    (before : ∀ {id n}, p'.node? id = some n → ∃ m, p.node? id = some m) : b.Broken p' := by
  obtain ⟨id, inside, missing⟩ := broken
  refine ⟨id, inside, Option.eq_none_iff_forall_ne_some.mpr fun n found => ?_⟩
  obtain ⟨m, there⟩ := before found
  exact nomatch missing.symm.trans there

namespace Plan

/-- The plans that rewrites lead to from a reachable one, each with the blocks that were identified on
the way. Any of these may be converted at any time, alone. -/
inductive History : Plan → List Block → Prop
  | reachable {p : Plan} (reachable : p.Reachable) : History p []
  | identified {p : Plan} {known blocks : List Block} (before : History p known)
      (found : p.blocks = .ok blocks) : History p (known ++ blocks)
  | compressed {p : Plan} {known : List Block} (before : History p known) : History p.compress.1 known
  | progressive {p : Plan} {known : List Block} (before : History p known) :
      History (makeProgressive p).2 known
  | converted {p : Plan} {known : List Block} {b : Block} (before : History p known)
      (member : b ∈ known) : History (convert b p).2 known

variable {p : Plan} {tops : List NodeId} {b : Block} {known : List Block}

section Broken

private theorem not_live_of_missing {id : NodeId} (missing : p.node? id = none) :
    p.getNode id = .error (.unknownNode id) := by
  rw [getNode, missing]

/-- Inlining looks every node of the block up. -/
private theorem inlineBlock_live {q : Query} (done : p.inlineBlock b = .ok q) {id : NodeId}
    (member : id ∈ b.ids) : ∃ n, p.node? id = some n := by
  unfold inlineBlock at done
  obtain ⟨all, folded, _⟩ := bind_eq_ok.mp done
  have listed : id ∈ b.members.reverse ++ [b.root] := by
    rw [List.mem_append, List.mem_reverse, List.mem_singleton, or_comm, ← List.mem_cons]
    exact member
  obtain ⟨before, after, step⟩ := foldlM_ok_step folded listed
  obtain ⟨n, found, _⟩ := bind_eq_ok.mp step
  cases there : p.node? id with
  | some n => exact ⟨n, rfl⟩
  | none => exact nomatch (not_live_of_missing there).symm.trans found

/-- Converting a block that has lost a node changes nothing. -/
theorem convert_of_broken (broken : b.Broken p) :
    ∃ answer, convert b p = (answer, p) ∧ ∀ c, answer = .ok c → c.isConverted = false := by
  obtain ⟨id, member, missing⟩ := broken
  unfold convert
  cases found : p.node? b.root with
  | none =>
    have looked : lookNode b.root p = (.error (.unknownNode b.root), p) := by
      rw [lookNode, not_live_of_missing found]
    exact ⟨_, bind_error looked, nofun⟩
  | some root =>
    rw [bind_ok (lookNode_eq found)]
    by_cases progressive : root.isProgressive = true
    · rw [if_pos progressive]
      refine ⟨_, rfl, ?_⟩
      rintro _ ⟨⟩
      rfl
    · rw [if_neg progressive, bind_ok (show (get : PlanM Plan) p = (.ok p, p) from rfl)]
      cases inlined : p.inlineBlock b with
      | error e => exact ⟨_, bind_error rfl, nofun⟩
      | ok q =>
        obtain ⟨n, there⟩ := inlineBlock_live inlined member
        exact nomatch missing.symm.trans there

end Broken

section Standing

/-- A merge takes a node out of a whole block, or keeps it whole. -/
private theorem Merged.standing {childId parentId : NodeId} {child parent : Node}
    {nodes : AscendingMap NodeId Node} (merging : Merging p tops childId parentId child parent)
    (merged : Merged p childId parentId child parent nodes) (whole : b.Whole p) :
    b.Whole { p with nodes } ∨ b.Broken { p with nodes } := by
  by_cases inside : childId ∈ b.ids
  · exact .inr ⟨childId, inside, merged.gone⟩
  left
  have notChild {id} (member : id ∈ b.ids) : id ≠ childId := fun same => inside (same ▸ member)
  have edge : p.Edge parentId childId := ⟨parent, merging.parentFound, merging.member⟩
  have notParent {id} (member : id ∈ b.ids) : id ≠ parentId := by
    rintro rfl
    exact inside (whole.mem_ids.mpr ((whole.mem_ids.mp member).tail edge))
  refine whole.of_edges ?_ fun {id d} member => ?_
  · obtain ⟨n, found, kind⟩ := whole.live
    obtain ⟨n', found', _⟩ := merged.keeps merging found (notChild List.mem_cons_self)
    obtain ⟨m, there, same⟩ := merged.kind merging found'
    cases found.symm.trans there
    exact ⟨n', found', same ▸ kind⟩
  · constructor
    · rintro ⟨n, found, reads⟩
      rcases merged.origin merging found with ⟨isParent, _⟩ | ⟨_, _, m, _, _, there, rfl, _⟩
      · exact absurd isParent (notParent member)
      · exact ⟨m, there, reads⟩
    · rintro ⟨n, found, reads⟩
      obtain ⟨n', found', _, _, kept⟩ := merged.keeps merging found (notChild member)
      refine ⟨n', found', kept d reads ?_⟩
      rintro rfl
      exact notParent member (merging.sound.edge_unique ⟨n, found, reads⟩ edge)

/-- So does the conversion of a block. A whole one that shares a node with it, and keeps all its own, shares
only the root, which was alone in its block. -/
private theorem Converts.standing {root : Node} {scramble : ScrambleMeta} {inlined : Query}
    {nodes : AscendingMap NodeId Node} (whole : b.Whole p)
    (converts : Converts p b root scramble inlined nodes) {other : Block} (standing : other.Whole p) :
    other.Whole { p with nodes } ∨ other.Broken { p with nodes } := by
  by_cases shared : ∃ id ∈ b.members, id ∈ other.ids
  · obtain ⟨id, absorbed, inside⟩ := shared
    exact .inr ⟨id, inside, converts.gone id absorbed⟩
  left
  have unchanged {id} (inside : id ∈ other.ids) (notRoot : id ≠ b.root) :
      ({ p with nodes } : Plan).node? id = p.node? id :=
    converts.other id (Block.not_mem_ids notRoot fun member => shared ⟨id, member, inside⟩)
  refine standing.of_edges ?_ fun {id d} inside => ?_
  · by_cases isRoot : other.root = b.root
    · exact ⟨absorbedRoot root scramble inlined, isRoot ▸ converts.turned, nofun⟩
    · rw [unchanged List.mem_cons_self isRoot]
      exact standing.live
  · by_cases isRoot : id = b.root
    · subst isRoot
      refine iff_of_false ?_ fun edge => ?_
      · rintro ⟨n, found, reads⟩
        cases converts.turned.symm.trans found
        cases reads
      · have below := standing.mem_ids.mpr ((standing.mem_ids.mp inside).tail edge)
        exact shared ⟨d, whole.members.mpr (.single edge), below⟩
    · unfold Edge
      rw [unchanged inside isRoot]

/-- Merges and conversions leave each block whole or broken, and what is broken stays so. -/
theorem preserved_standing (known : List Block) :
    Preserved fun p => ∀ b ∈ known, b.Whole p ∨ b.Broken p where
  merged := by
    intro p tops childId parentId child parent nodes merging _ merged before b member
    rcases before b member with whole | broken
    · exact merged.standing merging whole
    · refine .inr (broken.of_live fun found => ?_)
      obtain ⟨m, there, _⟩ := merged.before merging found
      exact ⟨m, there⟩
  converted := by
    intro p tops b root scramble inlined nodes _ whole converts before other member
    rcases before other member with standing | broken
    · exact converts.standing whole standing
    · refine .inr (broken.of_live fun found => ?_)
      rcases converts.origin found with ⟨rfl, _⟩ | ⟨_, there⟩
      · exact ⟨root, converts.found⟩
      · exact ⟨_, there⟩

end Standing

namespace History

/-- A plan with a history is sound, and each block identified in it is whole or broken. -/
theorem standing (history : p.History known) :
    ∃ root, p.root = some root ∧ p.Sound [root] ∧ ∀ b ∈ known, b.Whole p ∨ b.Broken p := by
  induction history with
  | reachable reachable =>
    obtain ⟨root, rooted, sound⟩ := reachable.sound
    exact ⟨root, rooted, sound, nofun⟩
  | identified _ found ih =>
    obtain ⟨root, rooted, sound, before⟩ := ih
    obtain ⟨blocks, made, wholes, _⟩ := sound.blocks_ok rooted
    cases found.symm.trans made
    refine ⟨root, rooted, sound, fun b member => ?_⟩
    rcases List.mem_append.mp member with old | new
    · exact before b old
    · exact .inl (wholes b new)
  | compressed _ ih =>
    obtain ⟨root, rooted, sound, before⟩ := ih
    have keeps := sound.keeps_compress
    exact ⟨root, keeps.root.trans rooted, keeps.sound, (preserved_standing _).compress sound before⟩
  | progressive _ ih =>
    obtain ⟨root, rooted, sound, before⟩ := ih
    have keeps := sound.keeps_makeProgressive rooted
    exact ⟨root, keeps.root.trans rooted, keeps.sound,
      (preserved_standing _).makeProgressive sound rooted before⟩
  | @converted p known b _ member ih =>
    obtain ⟨root, rooted, sound, before⟩ := ih
    rcases before b member with whole | broken
    · obtain ⟨keeps, _⟩ := sound.keeps_convert whole
      exact ⟨root, keeps.root.trans rooted, keeps.sound,
        (preserved_standing known).convert sound whole before⟩
    · obtain ⟨answer, same, _⟩ := convert_of_broken broken
      rw [same]
      exact ⟨root, rooted, sound, before⟩

/-- Converting a block that was identified at any time before gives a plan that passes its check, or
changes nothing. -/
theorem convert_safe (history : p.History known) (member : b ∈ known) :
    (∃ c, (convert b p).1 = .ok c ∧ c.isConverted = true ∧ (convert b p).2.check = .ok ())
      ∨ (∀ c, (convert b p).1 = .ok c → c.isConverted = false) ∧ (convert b p).2 = p := by
  obtain ⟨root, rooted, sound, standing⟩ := history.standing
  have untouched {answer} (same : convert b p = (answer, p))
      (left : ∀ c, answer = .ok c → c.isConverted = false) :
      (∀ c, (convert b p).1 = .ok c → c.isConverted = false) ∧ (convert b p).2 = p := by
    rw [same]
    exact ⟨left, rfl⟩
  rcases standing b member with whole | broken
  · rcases sound.convert_cases whole with ⟨answer, same, left, _⟩
      | ⟨own, scramble, inlined, nodes, converts, done⟩
    · exact .inr (untouched same left)
    · rw [done]
      exact .inl ⟨_, rfl, rfl, (sound.converts whole converts).check_eq_ok rooted⟩
  · obtain ⟨answer, same, left⟩ := convert_of_broken broken
    exact .inr (untouched same left)

/-- The sample plan has two blocks. The first is converted, and then compression merges the other into the
root: it is too late for that one, and nothing changes. -/
theorem busyHalves_convert_safe : ∃ orders refunds, busyHalvesBuilt.blocks = .ok [orders, refunds]
    ∧ (convert orders busyHalvesBuilt).2.check = .ok ()
    ∧ (convert orders busyHalvesBuilt).2.compress.1.nodeIds = [⟨0⟩, ⟨1⟩]
    ∧ (convert refunds (convert orders busyHalvesBuilt).2.compress.1).2
      = (convert orders busyHalvesBuilt).2.compress.1 := by
  let orders : Block := ⟨⟨1⟩, [], []⟩
  let refunds : Block := ⟨⟨2⟩, [], []⟩
  have identified : busyHalvesBuilt.blocks.toOption = some [orders, refunds] := by decide +kernel
  obtain ⟨root, rooted, sound⟩ := busyHalvesBuilt_reachable.sound
  obtain ⟨blocks, found, _⟩ := sound.blocks_ok rooted
  rw [found] at identified
  cases identified
  have history := History.identified (.reachable busyHalvesBuilt_reachable) found
  have first : (convert orders busyHalvesBuilt).1.toOption.map Conversion.isConverted = some true := by
    decide +kernel
  have second : (convert refunds (convert orders busyHalvesBuilt).2.compress.1).1.toOption = none := by
    decide +kernel
  refine ⟨orders, refunds, found, ?_, by decide +kernel, ?_⟩
  · rcases history.convert_safe List.mem_cons_self with ⟨_, _, _, checked⟩ | ⟨left, _⟩
    · exact checked
    · generalize (convert orders busyHalvesBuilt).1 = answer at first left
      cases answer with
      | error e => cases first
      | ok c => exact nomatch (left c rfl).symm.trans (Option.some.inj first)
  · have later := (History.converted history List.mem_cons_self).compressed
    rcases later.convert_safe (List.mem_cons_of_mem _ List.mem_cons_self) with ⟨c, done, _⟩ | ⟨_, same⟩
    · rw [done] at second
      cases second
    · exact same

end History

end Plan

end ApproxQuery
