import ApproxQuery.Proofs.Plan.Decomposition
import ApproxQuery.Proofs.Query.Validation

/-! What becomes of aggregate sub-queries that neither are correlated nor stand in a correlated one.
Each is taken out as a node, or the checks overlook it: a clause holds it in a sub-query that itself stays
in a clause. -/
namespace ApproxQuery

namespace Query

/-- The aggregate queries that a sub-query holds in its clauses outside its from-list and its filter, at
any depth. Whether the sub-query aggregates does not depend on them. -/
def unseen (q : Query) : List Query :=
  if q.isCorrelated then []
  else ((q.heldIn Place.own).flatMap (reachedWith Place.all)).filter isAggregateLevel

/-- The aggregate queries that the checks overlook at one level: the unseen ones of the sub-queries that
stay in its clauses. -/
def overlookedAt (level : Query) : List Query := (level.heldIn Place.checked).flatMap unseen

/-- The aggregate queries that the checks overlook at all levels that are searched. -/
def overlooked (q : Query) : List Query :=
  (q :: q.reachedIn Place.searched).flatMap overlookedAt

variable {q sub : Query}

private theorem flatMap_filter_eq_nil {subs : List Query}
    (none : ∀ sub ∈ subs, (sub.reachedWith Place.all).filter isAggregateLevel = []) :
    (subs.flatMap (reachedWith Place.all)).filter isAggregateLevel = [] := by
  rw [List.filter_flatMap]
  exact List.flatMap_eq_nil_iff.mpr none

private theorem aggregates_reached_eq_nil (still : ∀ level ∈ sub.levels, level.isAggregateLevel = false) :
    (sub.reachedWith Place.all).filter isAggregateLevel = [] :=
  List.filter_eq_nil_iff.mpr fun level reached =>
    Bool.eq_false_iff.mp (still level (mem_levels_of_reachedWith reached))

/-- Below a sub-query that does not aggregate, only what its own clauses hold can aggregate. -/
private theorem aggregates_inline (inline : q.isCorrelated = false → q.isAggregate = false) :
    (q.reachedWith Place.all).filter isAggregateLevel = q.unseen := by
  unfold unseen
  cases correlated : q.isCorrelated with
  | true => rw [reachedWith, correlated]; rfl
  | false =>
    obtain ⟨level, listed, filtered⟩ := isAggregate_eq_false.mp (inline correlated)
    have derived (sub) (member : sub ∈ q.heldIn Place.searched) :
        (sub.reachedWith Place.all).filter isAggregateLevel = [] := by
      rcases List.mem_append.mp (q.parts_eq ▸ member) with table | slot
      · exact aggregates_reached_eq_nil (listed sub (listed_of_derived table))
      · exact aggregates_reached_eq_nil (filtered sub slot)
    have conditions (sub) (member : sub ∈ q.heldIn [.clause .on]) :
        (sub.reachedWith Place.all).filter isAggregateLevel = [] := by
      obtain ⟨place, own, held⟩ := List.mem_flatMap.mp member
      cases List.mem_singleton.mp own
      exact aggregates_reached_eq_nil (listed sub (listed_of_condition held))
    rw [reachedWith, correlated, if_neg Bool.false_ne_true, if_neg Bool.false_ne_true,
      List.filter_cons_of_neg (by simp [level]), reachedIn_eq, heldIn_all, heldIn_checked,
      List.flatMap_append, List.flatMap_append, List.filter_append, List.filter_append,
      flatMap_filter_eq_nil derived, flatMap_filter_eq_nil conditions, List.nil_append, List.append_nil]

/-- Of a query that passes the checks, the aggregate sub-queries that neither are correlated nor stand
in a correlated one are those that are cut out and those that are overlooked. -/
theorem aggregates_perm (q : Query) : q.checkPositions = .ok () →
    ((q.reachedIn Place.all).filter isAggregateLevel).Perm (q.cuts ++ q.overlooked) := by
  induction q using nestedInduction with
  | level q ihListed ihSlotted =>
    intro passed
    obtain ⟨inline, passes⟩ := checkPositions_eq_ok.mp passed
    have below (sub) (member : sub ∈ q.heldIn Place.searched) :
        ((sub.reachedWith Place.all).filter isAggregateLevel).Perm (sub.cut ++
          (sub.reachedWith Place.searched).flatMap overlookedAt) := by
      unfold reachedWith cut
      cases correlated : sub.isCorrelated with
      | true => exact .refl _
      | false =>
        have ih : ((sub.reachedIn Place.all).filter isAggregateLevel).Perm (sub.cuts ++ sub.overlooked) :=
          (held_of_heldIn member).elim (fun listed => ihListed sub listed (passes sub member correlated))
            fun slotted => ihSlotted sub slotted (passes sub member correlated)
        cases level : sub.isAggregateLevel with
        | true =>
          rw [if_neg Bool.false_ne_true, List.filter_cons_of_pos level]
          exact ih.cons sub
        | false =>
          rw [if_neg Bool.false_ne_true, List.filter_cons_of_neg (by simp [level])]
          exact ih
    have checked : (q.heldIn Place.checked).flatMap (fun sub =>
        (sub.reachedWith Place.all).filter isAggregateLevel) = q.overlookedAt :=
      List.flatMap_congr fun sub member => aggregates_inline (inline sub member)
    rw [reachedIn_eq, heldIn_all, List.flatMap_append, List.filter_append,
      List.filter_flatMap, List.filter_flatMap, checked, overlooked, List.flatMap_cons, reachedIn_eq,
      List.flatMap_assoc, cuts_eq, parts_eq]
    have searched := (List.Perm.flatMap_left _ below).trans (List.flatMap_append_perm _ _ _).symm
    exact (searched.append_right _).trans (by
      rw [List.append_assoc]
      exact .append_left _ List.perm_append_comm)

end Query

namespace Plan

/-- Of a query that is accepted, the aggregate sub-queries that neither are correlated nor stand in a
correlated one are, one for one, the queries of the nodes below the root, and those that the checks
overlook. -/
theorem build_takes_aggregates {p : Plan} {q : Query} (empty : p.nodes = .empty) (unbuilt : p.root = none)
    (closed : q.placeholders = []) (accepted : q.validate = .ok ()) :
    ∃ root p' below, p.build q = .ok (root, p') ∧ p'.nodeIds = root :: below
      ∧ List.Forall₂ (fun id cut => ∃ r, p'.Restores id r ∧ r.Recovers { cut with asName := none })
          below q.cuts
      ∧ ((q.reachedIn Place.all).filter Query.isAggregateLevel).Perm (q.cuts ++ q.overlooked) := by
  obtain ⟨root, after⟩ := decomposed empty closed
  have nodes : ({ (decompose q p).2 with root := some (decompose q p).1, source := some q } : Plan).nodes
      = (decompose q p).2.nodes := rfl
  refine ⟨_, _, (List.range' (p.nextNode + 1) q.cuts.length).map NodeId.mk, build_eq unbuilt accepted,
    root ▸ after.ids, ?_, q.aggregates_perm (Query.validate_eq_ok.mp accepted).2.1⟩
  refine List.forall₂_map_left_iff.mpr (after.cut.imp fun index cut here => ?_)
  obtain ⟨r, restores, recovers⟩ := here
  exact ⟨r, restores.of_nodes nodes, recovers⟩

section Sample

/-- `SELECT (SELECT count(*) AS n FROM shop.refunds) AS m FROM shop.shops`. -/
def refundsOfShops : Query :=
  ⟨[⟨.subquery (countAll "refunds"), some "m"⟩], [.table ⟨"shop", "shops", none⟩], none, [], none, [],
    none, none⟩

/-- An aggregate query with a sub-query in its select list, and in the select list of that another
aggregate query. -/
def nestedCount : Query :=
  { countAll "orders" with
    selectList := [⟨.func "count" [.star none] false, some "n"⟩, ⟨.subquery refundsOfShops, some "x"⟩] }

theorem nestedCount_takes_aggregates : nestedCount.cuts = [] ∧ nestedCount.overlooked.length = 1
    ∧ ∃ root p', blank.build nestedCount = .ok (root, p') ∧ p'.nodeIds = [root]
      ∧ ((nestedCount.reachedIn Place.all).filter Query.isAggregateLevel).Perm nestedCount.overlooked := by
  have uncut : nestedCount.cuts = [] := rfl
  have overlooked : nestedCount.overlooked.length = 1 := by decide +kernel
  obtain ⟨root, p', below, built, ids, cuts, all⟩ :=
    build_takes_aggregates (p := blank) (q := nestedCount) rfl rfl rfl rfl
  rw [uncut] at cuts all
  cases cuts
  exact ⟨uncut, overlooked, root, p', built, ids, all⟩

/-- Not every aggregate query that could be planned as a node is. -/
theorem not_all_aggregates_cut : ¬ ∀ q : Query, q.placeholders = [] → q.validate = .ok () →
    ((q.reachedIn Place.all).filter Query.isAggregateLevel).Perm q.cuts := by
  intro all
  have reached : ((nestedCount.reachedIn Place.all).filter Query.isAggregateLevel).length = 1 := by
    decide +kernel
  have uncut : nestedCount.cuts.length = 0 := rfl
  rw [(all nestedCount rfl rfl).length_eq, uncut] at reached
  cases reached

end Sample

end Plan

end ApproxQuery
