import ApproxQuery.Proofs.Plan.Origins
import ApproxQuery.Proofs.Plan.Settling

/-! Compression of a freshly built plan: up to lookalikes it ends in one node, which reads nothing,
and which has the query itself where all cuts keep their aliases. -/
namespace ApproxQuery.Plan

variable {p p' : Plan} {q : Query} {root : NodeId}

section Building

/-- Without lookalikes at the top or among derived tables, all nodes of a built plan are fillable. -/
theorem fillable_of_build (empty : p.nodes = .empty) (closed : q.placeholders = [])
    (built : p.build q = .ok (root, p')) (unlike : q.isLookalike = false)
    (plain : q.Throughout Query.TablesPlain) : p'.FillableIn fun _ => True := by
  intro id n found _
  obtain ⟨origin, member, stems⟩ := stems_of_build empty closed built found
  apply stems.fillable (plain.origin member)
  rcases List.mem_cons.mp member with rfl | cut
  · exact unlike
  · exact Query.isLookalike_of_isAggregateLevel (Query.mem_cuts.mp cut).2

theorem not_progressive_of_build (empty : p.nodes = .empty) (closed : q.placeholders = [])
    (built : p.build q = .ok (root, p')) (id : NodeId) (n : Node) (found : p'.node? id = some n) :
    n.isProgressive = false := by
  obtain ⟨origin, _, stems⟩ := stems_of_build empty closed built found
  unfold Node.isProgressive Node.scramble?
  rw [stems.kind]
  cases origin.isAggregateLevel <;> rfl

/-- Without lookalikes in slots, and with all aliases kept, the root of a built plan means the query. -/
theorem expands_of_build (empty : p.nodes = .empty) (closed : q.placeholders = [])
    (built : p.build q = .ok (root, p')) (plain : q.Throughout Query.SlotsPlain)
    (named : q.Throughout Query.CutsNamed) : p'.Expands root q := by
  obtain ⟨rooted, sound⟩ := sound_of_build empty closed built
  obtain ⟨n, found, _⟩ := sound.top root List.mem_cons_self
  obtain ⟨r, expands⟩ := sound.exists_expands found
  have restores : p'.Restores root r := by
    apply Expands.restores sound _ expands
    intro id n found known
    obtain ⟨origin, member, stems⟩ := stems_of_build empty closed built found
    exact stems.graft_eq (sound.consistent found) (plain.origin member) known
  obtain ⟨unbuilt, accepted⟩ := of_build built
  obtain ⟨own, after⟩ := decomposed empty closed
  obtain ⟨r', whole, recovers⟩ := after.whole
  obtain ⟨isRoot, nodes⟩ : root = ⟨p.nextNode⟩ ∧ p'.nodes = (decompose q p).2.nodes := by
    cases (build_eq unbuilt accepted).symm.trans built
    exact ⟨own, rfl⟩
  have same : r = r' := restores.unique (isRoot ▸ whole.of_nodes nodes)
  rwa [same, recovers.eq_of_named q named] at expands

end Building

/-- Compressing the plan of an accepted query leaves no violation and one node, which reads nothing.
The exceptions are a query that is a lookalike and one that reads a lookalike as a derived table.
Where no slot holds a lookalike either, and where all that is cut out has an alias exactly as a
derived table, the query of that node is the original. -/
theorem compress_build_complete (empty : p.nodes = .empty) (unbuilt : p.root = none)
    (closed : q.placeholders = []) (accepted : q.validate = .ok ()) (unlike : q.isLookalike = false)
    (plain : q.Throughout Query.TablesPlain) :
    ∃ root p' n, p.build q = .ok (root, p') ∧ p'.compress.2.violations = []
      ∧ p'.compress.1.nodeList = [n] ∧ p'.compress.1.root = some n.id ∧ n.query.placeholders = []
      ∧ (q.Throughout Query.SlotsPlain → q.Throughout Query.CutsNamed → n.query = q) := by
  obtain ⟨root, p', built⟩ : ∃ root p', p.build q = .ok (root, p') := ⟨_, _, build_eq unbuilt accepted⟩
  obtain ⟨rooted, sound⟩ := sound_of_build empty closed built
  have fillable := fillable_of_build empty closed built unlike plain
  obtain ⟨quiet, n, alone, named, none⟩ :=
    sound.compress_complete rooted (not_progressive_of_build empty closed built) fillable
  have keeps := sound.keeps_compress
  have there := keeps.sound.paired.mem_nodeList.mp (alone ▸ List.mem_singleton_self n)
  have placed := (keeps.sound.consistent there).placed
  rw [none] at placed
  have filled : n.query.placeholders = [] := List.map_eq_nil_iff.mp placed.eq_nil
  refine ⟨root, p', n, built, quiet, alone, ?_, filled, fun slots aliases => ?_⟩
  · rw [named, ← rooted]
    exact keeps.root
  · have means := keeps.expands List.mem_cons_self (expands_of_build empty closed built slots aliases)
    rw [← named] at means
    exact (Expands.of_leaf there none filled).unique means

section Sample

theorem busyDays_compressed : busyDays.placeholders = [] ∧ busyDays.validate = .ok ()
    ∧ ∃ root p' n, blank.build busyDays = .ok (root, p') ∧ p'.compress.2.violations = []
      ∧ p'.compress.1.nodeList = [n] ∧ n.query = busyDays := by
  have slots : busyDays.Throughout Query.SlotsPlain := by
    apply busyDays_throughout
    · intro slot member
      rw [List.mem_singleton.mp member]
      rfl
    · exact fun table asName slot member => nomatch member
  have aliases : busyDays.Throughout Query.CutsNamed := by
    apply busyDays_throughout
    · constructor
      · intro d member _ _
        rw [List.mem_singleton.mp member]
        exact nofun
      · intro slot member _ _
        rw [List.mem_singleton.mp member]
        rfl
    · exact fun table asName => ⟨(fun d member => nomatch member), (fun slot member => nomatch member)⟩
  obtain ⟨root, p', n, built, quiet, alone, _, _, same⟩ :=
    compress_build_complete (p := blank) (q := busyDays) rfl rfl rfl rfl rfl busyDays_tablesPlain
  exact ⟨rfl, rfl, root, p', n, built, quiet, alone, same slots aliases⟩

/-- `SELECT * FROM (SELECT count(*) AS n FROM shop.orders) AS d`. -/
def wrapped : Query :=
  ⟨[⟨.star none, none⟩], [.subquery { countAll "orders" with asName := some "d" }],
    none, [], none, [], none, none⟩

/-- The root of the plan looks like a marker, and keeps its placeholder. -/
theorem wrapped_not_compressed : wrapped.placeholders = [] ∧ wrapped.validate = .ok ()
    ∧ (Plan.ofQuery "scratch" "0" .empty wrapped).map
        (fun p => (p.compress.2.violations, p.compress.1.nodeIds))
      = .ok ([.placeholderNotFound ⟨1⟩ ⟨0⟩], [⟨0⟩, ⟨1⟩]) := by
  refine ⟨rfl, ?_, ?_⟩
  · decide +kernel
  · decide +kernel

end Sample

end ApproxQuery.Plan
