import ApproxQuery.Proofs.Plan.Creation
import ApproxQuery.Proofs.Plan.Extraction
import Mathlib.Data.List.Forall2

/-! Decomposition loses nothing: a built plan is sound, its nodes are what was cut out of the query,
and putting their queries back recovers the query. -/
namespace ApproxQuery.Plan

section Building

variable {p : Plan} {q : Query}

private theorem not_found (empty : p.nodes = .empty) {id : NodeId} {n : Node}
    (found : p.node? id = some n) : False := by
  rw [node?, empty] at found
  exact nomatch found

private theorem sound_of_empty (empty : p.nodes = .empty) : p.Sound [] where
  ordered := empty ▸ AscendingMap.ordered_empty
  named := fun found => (not_found empty found).elim
  consistent := fun found => (not_found empty found).elim
  top := fun _ member => nomatch member
  below := fun found => (not_found empty found).elim
  reads := fun found => (not_found empty found).elim
  stored := fun found => (not_found empty found).elim
  scratch := fun found => (not_found empty found).elim
  queues := fun found => (not_found empty found).elim
  aggregates := fun found => (not_found empty found).elim

private theorem fresh_of_empty (empty : p.nodes = .empty) : p.Fresh where
  nodes := fun found => (not_found empty found).elim
  queues := fun found => (not_found empty found).elim
  tables := fun found => (not_found empty found).elim

/-- What decomposition makes of a plan without nodes. -/
structure Decomposed (p : Plan) (q : Query) (p' : Plan) : Prop where
  frame : SameFrame p p'
  sound : p'.Sound [⟨p.nextNode⟩]
  fresh : p'.Fresh
  ids : p'.nodeIds = (List.range' p.nextNode (q.cuts.length + 1)).map NodeId.mk
  cut : List.Forall₂ (fun index cut => ∃ r, p'.Restores ⟨index⟩ r ∧ r.Recovers { cut with asName := none })
    (List.range' (p.nextNode + 1) q.cuts.length) q.cuts
  whole : ∃ r, p'.Restores ⟨p.nextNode⟩ r ∧ r.Recovers q

theorem decomposed (empty : p.nodes = .empty) (closed : q.placeholders = []) :
    (decompose q p).1 = ⟨p.nextNode⟩ ∧ Decomposed p q (decompose q p).2 := by
  have sound := sound_of_empty empty
  have fresh := fresh_of_empty empty
  obtain ⟨searched, placed, recovered⟩ := (search_extract.query q closed).search p.afterOpening []
    (sound.of_nodes rfl) (fresh_afterOpening fresh)
  have closing : Closing _ [] (p.opened q) _ _ := Searched.closing sound fresh searched placed
  obtain ⟨sound', fresh', keeps, own, other, frame, nodes, _, _⟩ := closing.result rfl
  have result : decompose q p = (⟨p.nextNode⟩, (closeNode (p.opened q) (q.extract p.afterOpening).1.1
    (q.extract p.afterOpening).1.2 (q.extract p.afterOpening).2).2) := rfl
  have grown := (grown_afterOpening fresh).trans searched.grown
  obtain ⟨live, _⟩ := (List.forall₂_and_left _ _).mp searched.cut
  rw [result]
  refine ⟨rfl, grown.toSameFrame.trans frame, sound', fresh', ?_, ?_, ?_⟩
  · refine sound'.ordered.pairwise_keys.eq_of_mem_iff ?_ fun id => ?_
    · exact List.pairwise_map.mpr List.pairwise_lt_range'
    · refine sound'.paired.mem_nodeIds.trans ?_
      rw [List.mem_map]
      constructor
      · rintro ⟨n, found⟩
        refine ⟨id.index, List.mem_range'_1.mpr ⟨?_, ?_⟩, rfl⟩
        · by_contra early
          have different : id ≠ (p.opened q).id := by
            rintro rfl
            exact early (Nat.le_refl _)
          have unlinked : id ∉ (q.extract p.afterOpening).1.2.map Link.node := by
            intro linked
            obtain ⟨link, member, rfl⟩ := List.mem_map.mp linked
            have above : p.nextNode + 1 ≤ link.node.index := searched.new link member
            omega
          have before := (other different unlinked).symm.trans found
          exact not_found empty ((grown.old (Nat.lt_of_not_le early)).symm.trans before)
        · have below := fresh'.nodes found
          have start : p.afterOpening.nextNode = p.nextNode + 1 := rfl
          rw [nodes, searched.count, start] at below
          omega
      · rintro ⟨index, member, rfl⟩
        rw [List.range'_succ, List.mem_cons] at member
        rcases member with rfl | member
        · exact ⟨_, own⟩
        · obtain ⟨n, found⟩ := live index member
          obtain ⟨_, _, found'⟩ := keeps _ _ found
          exact ⟨_, found'⟩
  · refine searched.cut.imp fun index cut here => ?_
    obtain ⟨n, found⟩ := here.1
    obtain ⟨_, _, found'⟩ := keeps _ _ found
    obtain ⟨r, restores⟩ := sound'.exists_restores found'
    exact ⟨r, restores, here.2 _ r keeps restores⟩
  · obtain ⟨r, restores⟩ := sound'.exists_restores own
    refine ⟨r, restores, closing.recovers rfl ?_ (Extends.refl _) restores⟩
    exact fun p'' tables slots later puts => (recovered p'' tables slots later puts).1

/-- A plan can be built of every query that is accepted, as long as none was built before. -/
theorem build_eq (unbuilt : p.root = none) (accepted : q.validate = .ok ()) :
    p.build q = .ok ((decompose q p).1,
      { (decompose q p).2 with root := some (decompose q p).1, source := some q }) := by
  rw [build, buildQuery_eq unbuilt accepted]

/-- A plan is only built of a query that is accepted, and when none was built before. -/
theorem of_build {root : NodeId} {p' : Plan} (built : p.build q = .ok (root, p')) :
    p.root = none ∧ q.validate = .ok () := by
  cases earlier : p.root with
  | some _ =>
    rw [build, buildQuery_built earlier] at built
    cases built
  | none =>
    cases checked : q.validate with
    | ok _ => exact ⟨rfl, rfl⟩
    | error e =>
      rw [build, buildQuery_rejected earlier checked] at built
      cases built

/-- A built plan is sound. -/
theorem sound_of_build {root : NodeId} {p' : Plan} (empty : p.nodes = .empty)
    (closed : q.placeholders = []) (built : p.build q = .ok (root, p')) :
    p'.root = some root ∧ p'.Sound [root] := by
  obtain ⟨unbuilt, accepted⟩ := of_build built
  obtain ⟨own, after⟩ := decomposed empty closed
  cases (build_eq unbuilt accepted).symm.trans built
  exact ⟨rfl, own ▸ after.sound.of_nodes rfl⟩

/-- Decomposition loses nothing. The nodes below the root are, one for one, the sub-queries cut out
of the query, which are those that are reached and aggregate; and with all queries put back the
root's query is the one the plan was built from. -/
theorem build_recovers (empty : p.nodes = .empty) (unbuilt : p.root = none)
    (closed : q.placeholders = []) (accepted : q.validate = .ok ()) :
    ∃ root p' below, p.build q = .ok (root, p') ∧ p'.root = some root ∧ p'.nodeIds = root :: below
      ∧ (∀ sub, sub ∈ q.cuts ↔ q.Reaches sub ∧ sub.isAggregateLevel = true)
      ∧ List.Forall₂ (fun id cut => ∃ r, p'.Restores id r ∧ r.Recovers { cut with asName := none })
          below q.cuts
      ∧ ∃ r, p'.Restores root r ∧ r.Recovers q := by
  obtain ⟨root, after⟩ := decomposed empty closed
  have nodes : ({ (decompose q p).2 with root := some (decompose q p).1, source := some q } : Plan).nodes
      = (decompose q p).2.nodes := rfl
  refine ⟨_, _, (List.range' (p.nextNode + 1) q.cuts.length).map NodeId.mk, build_eq unbuilt accepted,
    rfl, ?_, fun _ => Query.mem_cuts, ?_, ?_⟩
  · rw [root]
    exact after.ids
  · refine List.forall₂_map_left_iff.mpr (after.cut.imp fun index cut here => ?_)
    obtain ⟨r, restores, recovers⟩ := here
    exact ⟨r, restores.of_nodes nodes, recovers⟩
  · obtain ⟨r, restores, recovers⟩ := after.whole
    exact ⟨r, root ▸ restores.of_nodes nodes, recovers⟩

section Sample

/-- `SELECT count(*) AS n FROM shop.table`. -/
def countAll (table : String) : Query :=
  ⟨[⟨.func "count" [.star none] false, some "n"⟩], [.table ⟨"shop", table, none⟩], none, [], none, [],
    none, none⟩

/-- A query that reads one aggregate in its from-list and one in its filter. -/
def busyDays : Query :=
  ⟨[⟨.column none "n", none⟩], [.subquery { countAll "orders" with asName := some "t" }],
    some (.binary .gt (.column none "n") (.subquery (countAll "refunds"))), [], none, [], none, none⟩

/-- A plan without nodes for the sample query. -/
def blank : Plan := unbuilt "scratch" "0" .empty

def busyDaysPlan : Plan :=
  { (decompose busyDays blank).2 with
    root := some (decompose busyDays blank).1
    source := some busyDays }

theorem busyDays_recovers : busyDays.placeholders = [] ∧ busyDays.validate = .ok ()
    ∧ busyDays.cuts.length = 2
    ∧ ∃ root p' below, blank.build busyDays = .ok (root, p')
      ∧ p'.nodeIds = root :: below
      ∧ List.Forall₂ (fun id cut => ∃ r, p'.Restores id r ∧ r.Recovers { cut with asName := none })
          below busyDays.cuts := by
  obtain ⟨root, p', below, built, _, ids, _, cuts, _⟩ :=
    build_recovers (p := blank) (q := busyDays) rfl rfl rfl rfl
  exact ⟨rfl, rfl, rfl, root, p', below, built, ids, cuts⟩

end Sample

end Building

end ApproxQuery.Plan
