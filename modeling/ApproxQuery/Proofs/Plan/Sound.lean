import ApproxQuery.Proofs.Plan.WellFormed

/-! Sound plans: forests whose nodes read each of their dependents at exactly one placeholder, are
signalled on one queue, and aggregate at their own level unless they stand at the top. -/
namespace ApproxQuery

/-- All references to a dependent that a node has recorded, in tables and in slots. -/
def Node.recordedRefs (n : Node) (d : NodeId) : List PlaceholderRef :=
  (n.tables.find? d).getD [] ++ ((n.filters.find? d).getD []).map SlotRef.ref

/-- What one node's records say of its own query. -/
structure Node.Consistent (n : Node) : Prop where
  distinct : n.dependents.Nodup
  placed : (n.query.placeholders.map PlaceholderRef.node).Perm n.dependents
  recorded : ∀ d, (n.recordedRefs d).Perm (n.query.placeholders.filter fun ref => ref.node = d)
  tables : n.tables.Ordered
  filters : n.filters.Ordered
  tableKeys : ∀ d ∈ n.tables.keys, d ∈ n.dependents
  filterKeys : ∀ d ∈ n.filters.keys, d ∈ n.dependents
  deaf : n.dependents = [] → n.listens = []
  hears : n.dependents ≠ [] → ∃ queue, n.listens = [queue]
  progressive : n.isProgressive → n.dependents = []

/-- The nodes of a plan form a forest with the given tops. -/
structure Plan.Sound (p : Plan) (tops : List NodeId) : Prop where
  ordered : p.nodes.Ordered
  named : ∀ {id n}, p.node? id = some n → n.id = id
  consistent : ∀ {id n}, p.node? id = some n → n.Consistent
  top : ∀ id ∈ tops, ∃ n, p.node? id = some n ∧ n.parents = [] ∧ n.broadcasts = []
  below : ∀ {id n}, p.node? id = some n → id ∉ tops →
    ∃ up m, n.parents = [up] ∧ p.node? up = some m ∧ id ∈ m.dependents
  reads : ∀ {id n d}, p.node? id = some n → d ∈ n.dependents →
    ∃ m, p.node? d = some m ∧ id < d ∧ m.parents = [id] ∧ m.broadcasts = n.listens
  stored : ∀ {id n ref}, p.node? id = some n → ref ∈ n.query.placeholders →
    ∃ m, p.node? ref.node = some m ∧ ref.table = m.scratch
  scratch : ∀ {a b n m}, p.node? a = some n → p.node? b = some m → n.scratch = m.scratch → a = b
  queues : ∀ {a b n m queue}, p.node? a = some n → p.node? b = some m →
    queue ∈ n.listens → queue ∈ m.listens → a = b
  aggregates : ∀ {id n}, p.node? id = some n → id ∉ tops →
    n.query.isAggregateLevel = true ∧ n.kind ≠ .projection

/-- A query whose placeholders are of distinct nodes has one for each of them. -/
theorem Query.read_once {q : Query} {ids : List NodeId} (distinct : ids.Nodup)
    (placed : (q.placeholders.map PlaceholderRef.node).Perm ids) {d : NodeId} (member : d ∈ ids) :
    (q.placeholders.filter fun ref => ref.node = d).length = 1 := by
  have count : (q.placeholders.map PlaceholderRef.node).count d = 1 := by
    rw [placed.count_eq]
    exact List.count_eq_one_of_mem distinct member
  rw [List.count, List.countP_map, List.countP_eq_length_filter] at count
  rw [← count]
  congr 1

namespace Node.Consistent

variable {n : Node}

theorem mem_dependents (consistent : n.Consistent) {d : NodeId} :
    d ∈ n.dependents ↔ ∃ ref ∈ n.query.placeholders, ref.node = d := by
  rw [← consistent.placed.mem_iff, List.mem_map]

/-- Each dependent is read at one placeholder. -/
theorem read_once (consistent : n.Consistent) {d : NodeId} (member : d ∈ n.dependents) :
    (n.query.placeholders.filter fun ref => ref.node = d).length = 1 :=
  Query.read_once consistent.distinct consistent.placed member

private theorem entries_nonempty {α : Type} {m : AscendingMap NodeId (List α)} (ordered : m.Ordered)
    {d : NodeId} : (∃ values, (d, values) ∈ m.entries ∧ values ≠ []) ↔ (m.find? d).getD [] ≠ [] := by
  simp only [ordered.mem_entries]
  cases m.find? d with
  | none => simp
  | some values => simp

theorem hasEntry_iff (consistent : n.Consistent) {d : NodeId} : n.HasEntry d ↔ d ∈ n.dependents := by
  have recorded : n.recordedRefs d ≠ [] ↔ ∃ ref ∈ n.query.placeholders, ref.node = d := by
    rw [← List.length_pos_iff, (consistent.recorded d).length_eq, List.length_pos_iff]
    simp [List.filter_eq_nil_iff]
  rw [HasEntry, entries_nonempty consistent.tables, entries_nonempty consistent.filters,
    consistent.mem_dependents, ← recorded, Node.recordedRefs, ne_eq, ne_eq, ne_eq, List.append_eq_nil_iff,
    List.map_eq_nil_iff, not_and_or]

end Node.Consistent

namespace Plan

namespace Sound

open Relation

variable {p : Plan} {tops : List NodeId}

theorem not_top (sound : p.Sound tops) {id d : NodeId} {n : Node} (found : p.node? id = some n)
    (member : d ∈ n.dependents) : d ∉ tops := by
  intro isTop
  obtain ⟨m, there, _, parents, _⟩ := sound.reads found member
  obtain ⟨m', there', none, _⟩ := sound.top d isTop
  cases there.symm.trans there'
  rw [none] at parents
  cases parents

theorem paired (sound : p.Sound tops) : p.Paired where
  ordered := sound.ordered
  named := sound.named
  parents := by
    intro id n found
    by_cases isTop : id ∈ tops
    · obtain ⟨m, there, none, _⟩ := sound.top id isTop
      cases found.symm.trans there
      rw [none]
      exact List.nodup_nil
    · obtain ⟨up, m, only, _⟩ := sound.below found isTop
      rw [only]
      exact List.nodup_singleton up
  dependents := fun found => (sound.consistent found).distinct
  upwards := by
    intro id n parent found member
    by_cases isTop : id ∈ tops
    · obtain ⟨m, there, none, _⟩ := sound.top id isTop
      cases found.symm.trans there
      rw [none] at member
      cases member
    · obtain ⟨up, m, only, there, back⟩ := sound.below found isTop
      rw [only] at member
      exact ⟨m, List.mem_singleton.mp member ▸ there, back⟩
  downwards := by
    intro id n d found member
    obtain ⟨m, there, _, only, _⟩ := sound.reads found member
    exact ⟨m, there, only ▸ List.mem_singleton_self id⟩

theorem lt_of_edge (sound : p.Sound tops) {id d : NodeId} (edge : p.Edge id d) : id < d := by
  obtain ⟨n, found, member⟩ := edge
  obtain ⟨m, _, below, _⟩ := sound.reads found member
  exact below

/-- No node is read by two. -/
theorem edge_unique (sound : p.Sound tops) {a b d : NodeId} (left : p.Edge a d)
    (right : p.Edge b d) : a = b := by
  obtain ⟨n, found, member⟩ := left
  obtain ⟨n', found', member'⟩ := right
  obtain ⟨m, there, _, only, _⟩ := sound.reads found member
  obtain ⟨m', there', _, only', _⟩ := sound.reads found' member'
  cases there.symm.trans there'
  rw [only] at only'
  exact List.head_eq_of_cons_eq only'

theorem lt_of_path (sound : p.Sound tops) {id d : NodeId} (path : TransGen p.Edge id d) :
    id < d := by
  induction path with
  | single edge => exact sound.lt_of_edge edge
  | tail _ edge ih => exact trans_of (· < ·) ih (sound.lt_of_edge edge)

theorem acyclic (sound : p.Sound tops) : p.Acyclic :=
  ⟨sound.paired, fun id loop => irrefl_of (· < ·) id (sound.lt_of_path loop)⟩

/-- There is no endless path. -/
theorem founded (sound : p.Sound tops) : WellFounded fun d id => p.Edge id d :=
  founded_of_loopless sound.acyclic.loopless

/-- Every node below the tops is reached from one of them. -/
theorem reached (sound : p.Sound tops) (id : NodeId) {n : Node} (found : p.node? id = some n)
    (notTop : id ∉ tops) : ∃ top ∈ tops, TransGen p.Edge top id := by
  obtain ⟨index⟩ := id
  induction index using Nat.strong_induction_on generalizing n with
  | _ index ih =>
    obtain ⟨up, m, _, there, member⟩ := sound.below found notTop
    have edge : p.Edge up ⟨index⟩ := ⟨m, there, member⟩
    by_cases isTop : up ∈ tops
    · exact ⟨up, isTop, .single edge⟩
    · obtain ⟨top, among, path⟩ := ih up.index (sound.lt_of_edge edge) there isTop
      exact ⟨top, among, path.tail edge⟩

/-- A sound plan with one top is well formed. -/
theorem wellFormed {root : NodeId} (sound : p.Sound [root]) : p.WellFormed root where
  top := by
    obtain ⟨n, found, none, _⟩ := sound.top root List.mem_cons_self
    exact ⟨n, found, none⟩
  owned := by
    intro id n found different
    obtain ⟨up, _, only, _⟩ := sound.below found (by simpa using different)
    exact only ▸ List.cons_ne_nil up []
  upwards := sound.paired.upwards
  downwards := sound.paired.downwards
  loopless := sound.acyclic.loopless
  reached := by
    intro id n found
    by_cases same : id = root
    · exact same ▸ .refl
    · obtain ⟨top, among, path⟩ := sound.reached id found (by simpa using same)
      exact (List.mem_singleton.mp among ▸ path).to_reflTransGen
  placed := fun found _ => (sound.consistent found).placed.mem_iff
  recorded := fun found _ => (sound.consistent found).hasEntry_iff
  unshared := sound.scratch

/-- A sound plan with one top passes the check. -/
theorem check_eq_ok {root : NodeId} (sound : p.Sound [root]) (rooted : p.root = some root) :
    p.check = .ok () :=
  sound.wellFormed.check_eq_ok sound.paired rooted

end Sound

end Plan

end ApproxQuery
