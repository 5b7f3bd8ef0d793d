import ApproxQuery.Proofs.Plan.Sound
import ApproxQuery.Proofs.Query.Graft

/-! The query of a node with those of the nodes it reads put back in place, all the way down. -/
namespace ApproxQuery.Plan

open Relation

/-- The known queries of some nodes. -/
def among (ids : List NodeId) (known : NodeId → Query) (d : NodeId) : Option Query :=
  if d ∈ ids then some (known d) else none

theorem among_congr {ids : List NodeId} {known known' : NodeId → Query}
    (same : ∀ d ∈ ids, known d = known' d) : among ids known = among ids known' := by
  funext d
  unfold among
  split
  · rename_i member
    exact congrArg some (same d member)
  · rfl

/-- A node's query with each placeholder replaced by the query its node has in the same sense: in a
from-list for nodes of the first list, in a slot for nodes of the second. -/
inductive Grafted (p : Plan) (tables slots : Node → List NodeId) : NodeId → Query → Prop
  | node {id n} {known : NodeId → Query} (found : p.node? id = some n)
    (below : ∀ d, d ∈ tables n ∨ d ∈ slots n → Grafted p tables slots d (known d)) :
    Grafted p tables slots id (n.query.graft (among (tables n) known) (among (slots n) known))

/-- What a node means: every placeholder of a dependent gives way to what the dependent means, as
the query of a slot where it is a marker, and as a derived table elsewhere. -/
def Expands (p : Plan) : NodeId → Query → Prop := p.Grafted Node.dependents Node.dependents

/-- A node's query with its dependents' queries put back where the node recorded them, as derived
tables or in slots. -/
def Restores (p : Plan) : NodeId → Query → Prop :=
  p.Grafted (fun n => n.tables.keys) fun n => n.filters.keys

variable {p : Plan} {tables slots : Node → List NodeId}

theorem Grafted.of_nodes {p' : Plan} (same : p'.nodes = p.nodes) {id : NodeId} {q : Query}
    (grafted : p.Grafted tables slots id q) : p'.Grafted tables slots id q := by
  induction grafted with
  | node found below ih => exact .node ((congrArg (AscendingMap.find? · _) same).trans found) ih

theorem Expands.found {id : NodeId} {q : Query} (expands : p.Expands id q) :
    ∃ n, p.node? id = some n := by
  cases expands with
  | node found _ => exact ⟨_, found⟩

theorem Expands.node {id : NodeId} {n : Node} (known : NodeId → Query) (found : p.node? id = some n)
    (below : ∀ d ∈ n.dependents, p.Expands d (known d)) :
    p.Expands id (n.query.graft (among n.dependents known) (among n.dependents known)) :=
  Grafted.node found fun d member => below d (member.elim (fun h => h) fun h => h)

/-- A node that reads nothing means its own query. -/
theorem Expands.of_leaf {id : NodeId} {n : Node} (found : p.node? id = some n)
    (none : n.dependents = []) (closed : n.query.placeholders = []) : p.Expands id n.query := by
  have means := Expands.node (fun _ => default) found fun d member => nomatch none ▸ member
  rwa [Query.graft_of_placeholders_eq_nil closed] at means

/-- What a node means is put together from what its dependents mean. -/
theorem Expands.known {id : NodeId} {n : Node} {q : Query} (expands : p.Expands id q)
    (found : p.node? id = some n) : ∃ known : NodeId → Query,
      q = n.query.graft (among n.dependents known) (among n.dependents known)
        ∧ ∀ d ∈ n.dependents, p.Expands d (known d) := by
  cases expands with
  | @node _ _ known found' below =>
    cases found.symm.trans found'
    exact ⟨known, rfl, fun d member => below d (.inl member)⟩

/-- There is at most one such query. -/
theorem Grafted.unique {id : NodeId} {q r : Query} (first : p.Grafted tables slots id q)
    (second : p.Grafted tables slots id r) : q = r := by
  induction first generalizing r with
  | node found below ih =>
    cases second with
    | node found' below' =>
      cases found.symm.trans found'
      rw [among_congr fun d member => ih d (.inl member) (below' d (.inl member)),
        among_congr fun d member => ih d (.inr member) (below' d (.inr member))]

/-- In a sound plan there is one, as long as only dependents are put back. -/
theorem Sound.exists_grafted {tops : List NodeId} (sound : p.Sound tops)
    (within : ∀ {n : Node}, n.Consistent → ∀ d, d ∈ tables n ∨ d ∈ slots n → d ∈ n.dependents)
    (id : NodeId) : ∀ n, p.node? id = some n → ∃ q, p.Grafted tables slots id q := by
  induction id using sound.founded.induction with
  | _ id ih =>
    intro n found
    have each (d) (member : d ∈ tables n ∨ d ∈ slots n) : ∃ q, p.Grafted tables slots d q := by
      have dependent := within (sound.consistent found) d member
      obtain ⟨m, there, _⟩ := sound.reads found dependent
      exact ih d ⟨n, found, dependent⟩ m there
    have every (d) : ∃ q, d ∈ tables n ∨ d ∈ slots n → p.Grafted tables slots d q := by
      by_cases member : d ∈ tables n ∨ d ∈ slots n
      · obtain ⟨q, grafted⟩ := each d member
        exact ⟨q, fun _ => grafted⟩
      · exact ⟨default, fun claimed => absurd claimed member⟩
    choose known below using every
    exact ⟨_, .node found below⟩

theorem Sound.exists_expands {tops : List NodeId} (sound : p.Sound tops) {id : NodeId} {n : Node}
    (found : p.node? id = some n) : ∃ q, p.Expands id q :=
  sound.exists_grafted (fun _ _ member => member.elim (fun h => h) fun h => h) id n found

theorem Sound.exists_restores {tops : List NodeId} (sound : p.Sound tops) {id : NodeId} {n : Node}
    (found : p.node? id = some n) : ∃ q, p.Restores id q :=
  sound.exists_grafted
    (fun consistent d member => member.elim (consistent.tableKeys d) (consistent.filterKeys d)) id n
    found

section Keeping

variable {tops : List NodeId}

/-- A plan in place of another: sound with the same root and catalog, and with the same meaning at
the tops. -/
structure Keeps (tops : List NodeId) (p p' : Plan) : Prop where
  root : p'.root = p.root
  catalog : p'.catalog = p.catalog
  sound : p'.Sound tops
  expands : ∀ {top q}, top ∈ tops → p.Expands top q → p'.Expands top q

theorem Keeps.trans {p' p'' : Plan} (first : Keeps tops p p') (second : Keeps tops p' p'') :
    Keeps tops p p'' where
  root := second.root.trans first.root
  catalog := second.catalog.trans first.catalog
  sound := second.sound
  expands := fun isTop means => second.expands isTop (first.expands isTop means)

theorem Sound.keeps_self (sound : p.Sound tops) : Keeps tops p p :=
  ⟨rfl, rfl, sound, fun _ means => means⟩

end Keeping

end ApproxQuery.Plan
