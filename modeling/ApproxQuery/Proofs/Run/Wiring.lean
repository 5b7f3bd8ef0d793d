import ApproxQuery.Proofs.Plan.Sound
import ApproxQuery.Proofs.Query.Placeholders
import ApproxQuery.Run.Machine

/-! The queues of a sound plan: a node waits for one token from each node it reads. -/
namespace ApproxQuery

/-- What a node has to receive when so many tokens are missing. -/
def Node.outstanding (n : Node) (left : Nat) : List (QueueId × Nat) :=
  if left = 0 then [] else n.listens.map fun queue => (queue, left)

theorem Node.Consistent.outstanding_eq {n : Node} (consistent : n.Consistent) {left : Nat}
    (atMost : left ≤ n.dependents.length) :
    (left = 0 ∧ n.outstanding left = [])
      ∨ ∃ queue, left ≠ 0 ∧ n.listens = [queue] ∧ n.outstanding left = [(queue, left)] := by
  unfold Node.outstanding
  by_cases none : left = 0
  · exact .inl ⟨none, if_pos none⟩
  · have reads : n.dependents ≠ [] := by
      intro empty
      rw [empty] at atMost
      exact none (Nat.le_zero.mp atMost)
    obtain ⟨queue, hears⟩ := consistent.hears reads
    refine .inr ⟨queue, none, hears, ?_⟩
    rw [if_neg none, hears]
    rfl

/-- A node that misses tokens misses them on the one queue it listens on. -/
theorem Node.Consistent.of_outstanding_cons {n : Node} (consistent : n.Consistent) {left count : Nat}
    {queue : QueueId} {rest : List (QueueId × Nat)} (atMost : left ≤ n.dependents.length)
    (missing : (queue, count) :: rest = n.outstanding left) :
    left ≠ 0 ∧ count = left ∧ rest = [] ∧ n.listens = [queue] := by
  rcases consistent.outstanding_eq atMost with ⟨_, none⟩ | ⟨_, some, hears, single⟩
  · cases missing.trans none
  · cases missing.trans single
    exact ⟨some, rfl, rfl, hears⟩

namespace Plan

variable {p : Plan} {tops : List NodeId} {id d : NodeId} {n m : Node} {queue : QueueId}

/-- Only nodes that a node reads signal it. -/
theorem Sound.mem_dependents_of_broadcast (sound : p.Sound tops) (found : p.node? id = some n)
    (there : p.node? d = some m) (hears : queue ∈ n.listens) (signals : queue ∈ m.broadcasts) :
    d ∈ n.dependents := by
  by_cases isTop : d ∈ tops
  · obtain ⟨m', there', _, silent⟩ := sound.top d isTop
    cases there.symm.trans there'
    rw [silent] at signals
    cases signals
  · obtain ⟨up, above, _, found', reads⟩ := sound.below there isTop
    obtain ⟨m', there', _, _, heard⟩ := sound.reads found' reads
    cases there.symm.trans there'
    cases sound.queues found found' hears (heard ▸ signals)
    cases found.symm.trans found'
    exact reads

/-- A node signals on one queue at most, and a top on none. -/
theorem Sound.broadcasts_eq (sound : p.Sound tops) (there : p.node? d = some m)
    (signals : queue ∈ m.broadcasts) : d ∉ tops ∧ m.broadcasts = [queue] := by
  by_cases isTop : d ∈ tops
  · obtain ⟨m', there', _, silent⟩ := sound.top d isTop
    cases there.symm.trans there'
    rw [silent] at signals
    cases signals
  · obtain ⟨up, above, _, found, reads⟩ := sound.below there isTop
    obtain ⟨m', there', _, _, heard⟩ := sound.reads found reads
    cases there.symm.trans there'
    obtain ⟨only, listens⟩ := (sound.consistent found).hears (List.ne_nil_of_mem reads)
    rw [heard, listens] at signals ⊢
    exact ⟨isTop, List.mem_singleton.mp signals ▸ rfl⟩

/-- A queue carries one token from each dependent of the node that listens on it. -/
theorem Sound.broadcastCount_eq (sound : p.Sound tops) (found : p.node? id = some n)
    (hears : queue ∈ n.listens) : p.broadcastCount queue = n.dependents.length := by
  have once (m) (member : m ∈ p.nodeList) : List.count queue m.broadcasts
      = if n.dependents.contains m.id then 1 else 0 := by
    have there := sound.paired.mem_nodeList.mp member
    by_cases reads : m.id ∈ n.dependents
    · obtain ⟨only, heard⟩ := (sound.consistent found).hears (List.ne_nil_of_mem reads)
      obtain ⟨m', there', _, _, broadcasts⟩ := sound.reads found reads
      cases there.symm.trans there'
      rw [heard, List.mem_singleton] at hears
      rw [broadcasts, heard, hears, if_pos (List.contains_iff_mem.mpr reads)]
      exact List.count_singleton_self
    · rw [if_neg fun listed => reads (List.contains_iff_mem.mp listed), List.count_eq_zero]
      exact fun signals => reads (sound.mem_dependents_of_broadcast found there hears signals)
  have listed : (p.nodeIds.filter n.dependents.contains).Perm n.dependents := by
    refine (List.perm_ext_iff_of_nodup (sound.ordered.nodup_keys.filter _)
      (sound.consistent found).distinct).mpr fun d => ?_
    rw [List.mem_filter, List.contains_iff_mem]
    refine and_iff_right_of_imp fun reads => ?_
    obtain ⟨m, there, _⟩ := sound.reads found reads
    exact sound.paired.mem_nodeIds.mpr ⟨m, there⟩
  calc p.broadcastCount queue
      = (p.nodeList.map fun m => List.count queue m.broadcasts).sum := List.count_flatMap
    _ = (p.nodeList.map fun m => if n.dependents.contains m.id then 1 else 0).sum :=
        congrArg List.sum (List.map_congr_left once)
    _ = p.nodeList.countP fun m => n.dependents.contains m.id := sum_indicator _ _
    _ = (p.nodeList.map Node.id).countP n.dependents.contains := by
        rw [List.countP_map]
        rfl
    _ = (p.nodeIds.filter n.dependents.contains).length := by
        rw [sound.paired.map_id_nodeList, List.countP_eq_length_filter]
    _ = n.dependents.length := listed.length_eq

/-- At first a token is missing from every dependent. -/
theorem Sound.missingTokens_eq (sound : p.Sound tops) (found : p.node? id = some n) :
    Setting.missingTokens p n = n.outstanding n.dependents.length := by
  have consistent := sound.consistent found
  unfold Setting.missingTokens endpoints Node.outstanding
  by_cases none : n.dependents = []
  · simp [none, consistent.deaf none]
  · obtain ⟨queue, heard⟩ := consistent.hears none
    have count := sound.broadcastCount_eq found (heard ▸ List.mem_singleton_self queue)
    have some : n.dependents.length ≠ 0 := fun empty => none (List.length_eq_zero_iff.mp empty)
    simp [heard, count, some]

end Plan

end ApproxQuery
