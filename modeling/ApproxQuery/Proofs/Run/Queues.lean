import ApproxQuery.Proofs.Plan.Reachable
import ApproxQuery.Proofs.Run.Wiring

/-! The queues of a reachable plan connect each node with exactly the nodes that it reads, so that a
run can be wired whatever the plan has been through. -/
namespace ApproxQuery.Plan

/-- Queues lead from dependents to the node that reads them, and nowhere else. -/
structure Wired (p : Plan) : Prop where
  /-- No queue is listened to by two nodes. -/
  single : ∀ {a b n m queue}, p.node? a = some n → p.node? b = some m →
    queue ∈ n.listens → queue ∈ m.listens → a = b
  /-- A node listens on one queue if it reads others. -/
  hears : ∀ {id n}, p.node? id = some n → n.dependents ≠ [] → ∃ queue, n.listens = [queue]
  /-- A node that reads no other listens on none. -/
  deaf : ∀ {id n}, p.node? id = some n → n.dependents = [] → n.listens = []
  /-- Those that signal a node are those it reads. -/
  signals : ∀ {id d n m}, p.node? id = some n → p.node? d = some m →
    ((∃ queue ∈ n.listens, queue ∈ m.broadcasts) ↔ d ∈ n.dependents)
  /-- Every signal is heard. -/
  heard : ∀ {d m queue}, p.node? d = some m → queue ∈ m.broadcasts →
    ∃ id n, p.node? id = some n ∧ queue ∈ n.listens

variable {p : Plan} {tops : List NodeId}

theorem Sound.wired (sound : p.Sound tops) : p.Wired where
  single := sound.queues
  hears := fun found => (sound.consistent found).hears
  deaf := fun found => (sound.consistent found).deaf
  signals := by
    intro id d n m found there
    constructor
    · rintro ⟨queue, hears, signals⟩
      exact sound.mem_dependents_of_broadcast found there hears signals
    · intro reads
      obtain ⟨queue, listens⟩ := (sound.consistent found).hears (List.ne_nil_of_mem reads)
      obtain ⟨m', there', _, _, same⟩ := sound.reads found reads
      cases there.symm.trans there'
      have hears : queue ∈ n.listens := listens ▸ List.mem_singleton_self queue
      exact ⟨queue, hears, same ▸ hears⟩
  heard := by
    intro d m queue there signals
    obtain ⟨notTop, _⟩ := sound.broadcasts_eq there signals
    obtain ⟨up, n, _, found, reads⟩ := sound.below there notTop
    obtain ⟨m', there', _, _, same⟩ := sound.reads found reads
    cases there.symm.trans there'
    exact ⟨up, n, found, same ▸ signals⟩

theorem sharedQueue?_eq_none {taken queues : List QueueId} (distinct : queues.Nodup)
    (fresh : ∀ queue ∈ queues, queue ∉ taken) : sharedQueue? taken queues = none := by
  induction queues generalizing taken with
  | nil => rfl
  | cons queue rest ih =>
    obtain ⟨own, distinctRest⟩ := List.nodup_cons.mp distinct
    have untaken : taken.contains queue = false := by simpa using fresh queue List.mem_cons_self
    rw [sharedQueue?, untaken, if_neg Bool.false_ne_true]
    apply ih distinctRest
    intro other member again
    rcases List.mem_cons.mp again with same | before
    · exact own (same ▸ member)
    · exact fresh other (List.mem_cons_of_mem _ member) before

/-- All listening taken together names no queue twice. -/
theorem Sound.nodup_listens (sound : p.Sound tops) : (p.nodeList.flatMap Node.listens).Nodup := by
  apply List.nodup_flatMap.mpr
  constructor
  · intro n member
    have consistent := sound.consistent (sound.paired.mem_nodeList.mp member)
    by_cases none : n.dependents = []
    · simp [consistent.deaf none]
    · obtain ⟨queue, listens⟩ := consistent.hears none
      simp [listens]
  · have ids : p.nodeList.Pairwise fun n m => n.id ≠ m.id := by
      apply List.pairwise_map.mp
      rw [sound.paired.map_id_nodeList]
      exact sound.ordered.nodup_keys
    apply ids.imp_of_mem
    intro n m member member' different queue hears hears'
    have found := sound.paired.mem_nodeList.mp member
    have there := sound.paired.mem_nodeList.mp member'
    exact different (sound.queues found there hears hears')

/-- A sound plan can be wired, and a listener expects one token from each node that its owner
reads. -/
theorem Sound.wiring_eq (sound : p.Sound tops) :
    p.wiring = .ok (p.nodeList.map fun n =>
      (n.id, ⟨n.listens.map fun queue => ⟨queue, n.dependents.length⟩, n.broadcasts⟩)) := by
  have unshared := sharedQueue?_eq_none sound.nodup_listens fun queue _ => List.not_mem_nil
  unfold wiring
  rw [unshared]
  apply congrArg Except.ok
  apply List.map_congr_left
  intro n member
  have found := sound.paired.mem_nodeList.mp member
  have expected : n.listens.map (fun queue => (⟨queue, p.broadcastCount queue⟩ : Listener))
      = n.listens.map fun queue => ⟨queue, n.dependents.length⟩ := by
    apply List.map_congr_left
    intro queue hears
    rw [sound.broadcastCount_eq found hears]
  rw [endpoints, expected]

/-- In a reachable plan the nodes that signal a node are exactly those it reads, on a queue of its
own, and the plan can be wired with the expected number of tokens. -/
theorem Reachable.queues_wired (reachable : p.Reachable) :
    p.Wired ∧ ∃ ends, p.wiring = .ok ends ∧ ends.map Prod.fst = p.nodeIds
      ∧ ∀ id own, (id, own) ∈ ends → ∃ n, p.node? id = some n ∧ own.broadcasters = n.broadcasts
        ∧ own.listeners.map Listener.queue = n.listens
        ∧ ∀ listener ∈ own.listeners, listener.expected = n.dependents.length := by
  obtain ⟨root, _, sound⟩ := reachable.sound
  refine ⟨sound.wired, _, sound.wiring_eq, ?_, ?_⟩
  · rw [List.map_map, ← sound.paired.map_id_nodeList]
    rfl
  · intro id own member
    obtain ⟨n, listed, same⟩ := List.mem_map.mp member
    cases same
    refine ⟨n, sound.paired.mem_nodeList.mp listed, rfl, ?_, ?_⟩
    · rw [List.map_map]
      exact List.map_id _
    · intro listener among
      obtain ⟨queue, _, rfl⟩ := List.mem_map.mp among
      rfl

theorem busyDaysPlan_queues_wired : busyDaysPlan.Reachable ∧ busyDaysPlan.size = 3
    ∧ busyDaysPlan.Wired ∧ ∃ ends, busyDaysPlan.wiring = .ok ends := by
  obtain ⟨wired, ends, connected, _⟩ := Reachable.queues_wired busyDaysPlan_reachable
  exact ⟨busyDaysPlan_reachable, rfl, wired, ends, connected⟩

end ApproxQuery.Plan
