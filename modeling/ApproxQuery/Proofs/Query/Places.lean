import ApproxQuery.Plan.Error
import ApproxQuery.Proofs.Query.Levels
import ApproxQuery.Proofs.Query.Recovery
import Mathlib.Algebra.Order.Group.Multiset
import Mathlib.Tactic.Abel

/-! Where a level holds its sub-queries, and which sub-queries are reached when only some of these
places are entered. Decomposition enters derived tables and filters. -/
namespace ApproxQuery

/-- Where a level holds a sub-query: in a derived table, or in a slot of its filter or of another
clause. -/
inductive Place where
  | derived
  | filter
  | clause (clause : Clause)
deriving DecidableEq, Repr

namespace Place

/-- The places in which decomposition searches. -/
def searched : List Place := [.derived, .filter]

/-- The clauses of a level outside its from-list and its filter. -/
def own : List Place := [.clause .selectList, .clause .groupBy, .clause .having, .clause .orderBy]

/-- The clauses in which an aggregate sub-query cannot be planned. -/
def checked : List Place := own ++ [.clause .on]

def all : List Place := searched ++ checked

end Place

/-- The expressions that a level has in a clause. -/
def Clause.exprs (q : Query) : Clause → List Expr
  | .selectList => q.selectList.map SelectItem.expr
  | .groupBy => q.groupBy
  | .having => q.having.toList
  | .orderBy => q.orderBy.map OrderItem.expr
  | .on => q.joinConditions

namespace Query

/-- The sub-queries that a level holds in one place. -/
def heldAt (q : Query) : Place → List Query
  | .derived => q.directSubqueries
  | .filter => (q.filter.toList.flatMap Expr.slots).map Prod.snd
  | .clause clause => ((clause.exprs q).flatMap Expr.slots).map Prod.snd

/-- The sub-queries that a level holds in some places. -/
def heldIn (q : Query) (places : List Place) : List Query := places.flatMap q.heldAt

end Query

section Holding

variable {q sub : Query} {e : Expr} {place : Place} {places : List Place}

theorem FromItem.listed_of_condition {item : FromItem} (condition : e ∈ item.joinConditions)
    {slot : SubqueryKind × Query} (inSlots : slot ∈ e.slots) : slot.2 ∈ item.listed := by
  induction item using FromItem.treeInduction with
  | table t => cases condition
  | subquery q => cases condition
  | join left right kind on ihLeft ihRight =>
    rw [joinConditions, List.mem_append, List.mem_append, Option.mem_toList] at condition
    rcases condition with (inLeft | inRight) | own
    · exact mem_listed_join.mpr (.inl (ihLeft inLeft))
    · exact mem_listed_join.mpr (.inr (.inl (ihRight inRight)))
    · exact mem_listed_join.mpr (.inr (.inr ⟨e, own, slot, inSlots, rfl⟩))
  | placeholder ref => cases condition

/-- What an item holds is in its derived tables and in the slots of its join conditions. -/
theorem FromItem.listed_perm (item : FromItem) :
    (item.directSubqueries ++ (item.joinConditions.flatMap Expr.slots).map Prod.snd).Perm item.listed := by
  induction item using FromItem.treeInduction with
  | table t => exact .refl _
  | subquery q => exact .refl _
  | join left right kind on ihLeft ihRight =>
    refine .trans ?_ ((ihLeft.append ihRight).append_right _)
    rw [directSubqueries, joinConditions, List.flatMap_append, List.flatMap_append, List.map_append,
      List.map_append, ← Multiset.coe_eq_coe]
    simp only [← Multiset.coe_add]
    abel
  | placeholder ref => exact .refl _

namespace Query

private theorem mem_exprs : e ∈ q.exprs ↔ e ∈ q.selectList.map SelectItem.expr ∨ e ∈ q.filter.toList
    ∨ e ∈ q.groupBy ∨ e ∈ q.having.toList ∨ e ∈ q.orderBy.map OrderItem.expr := by
  simp only [exprs, List.mem_append, or_assoc]

private theorem slotted_of_exprs {es : List Expr} (among : es ⊆ q.exprs)
    (member : sub ∈ (es.flatMap Expr.slots).map Prod.snd) : sub ∈ q.slotted := by
  obtain ⟨e, inClause, slots⟩ := mem_slots.mp member
  exact mem_slots.mpr ⟨e, among inClause, slots⟩

theorem listed_of_condition (member : sub ∈ q.heldAt (.clause .on)) : sub ∈ q.listed := by
  obtain ⟨e, condition, slot, inSlots, rfl⟩ := mem_slots.mp member
  obtain ⟨item, inList, inItem⟩ := List.mem_flatMap.mp condition
  exact List.mem_flatMap.mpr ⟨item, inList, FromItem.listed_of_condition inItem inSlots⟩

theorem listed_of_derived (member : sub ∈ q.heldAt .derived) : sub ∈ q.listed := by
  obtain ⟨item, inList, inItem⟩ := List.mem_flatMap.mp member
  exact List.mem_flatMap.mpr ⟨item, inList, FromItem.listed_of_derived inItem⟩

/-- What a level holds in a place is in its from-list or in the slots of its expressions. -/
theorem held_of_heldAt (member : sub ∈ q.heldAt place) : sub ∈ q.listed ∨ sub ∈ q.slotted := by
  cases place with
  | derived => exact .inl (listed_of_derived member)
  | filter => exact .inr (slotted_of_exprs (fun _ own => mem_exprs.mpr (.inr (.inl own))) member)
  | clause clause =>
    cases clause with
    | on => exact .inl (listed_of_condition member)
    | selectList => exact .inr (slotted_of_exprs (fun _ own => mem_exprs.mpr (.inl own)) member)
    | groupBy =>
      exact .inr (slotted_of_exprs (fun _ own => mem_exprs.mpr (.inr (.inr (.inl own)))) member)
    | having =>
      exact .inr (slotted_of_exprs (fun _ own => mem_exprs.mpr (.inr (.inr (.inr (.inl own))))) member)
    | orderBy =>
      exact .inr (slotted_of_exprs (fun _ own => mem_exprs.mpr (.inr (.inr (.inr (.inr own))))) member)

theorem held_of_heldIn (member : sub ∈ q.heldIn places) : sub ∈ q.listed ∨ sub ∈ q.slotted := by
  obtain ⟨place, _, inPlace⟩ := List.mem_flatMap.mp member
  exact held_of_heldAt inPlace

theorem heldIn_all (q : Query) :
    q.heldIn Place.all = q.heldIn Place.searched ++ q.heldIn Place.checked := List.flatMap_append

theorem heldIn_checked (q : Query) :
    q.heldIn Place.checked = q.heldIn Place.own ++ q.heldIn [.clause .on] := List.flatMap_append

/-- Every sub-query that a level holds is in one of the places. -/
theorem heldIn_all_perm (q : Query) : (q.heldIn Place.all).Perm (q.listed ++ q.slotted) := by
  have items : (q.heldAt .derived ++ q.heldAt (.clause .on)).Perm q.listed := by
    have each : (q.heldAt .derived ++ q.heldAt (.clause .on)) = q.fromList.flatMap FromItem.directSubqueries
        ++ q.fromList.flatMap fun item => (item.joinConditions.flatMap Expr.slots).map Prod.snd := by
      rw [heldAt, heldAt, Clause.exprs, directSubqueries, joinConditions, List.flatMap_assoc,
        List.map_flatMap]
    rw [each]
    exact (List.flatMap_append_perm _ _ _).trans (.flatMap_left _ fun item _ => item.listed_perm)
  have slots : q.slotted = q.heldAt (.clause .selectList) ++ q.heldAt .filter ++ q.heldAt (.clause .groupBy)
      ++ q.heldAt (.clause .having) ++ q.heldAt (.clause .orderBy) := by
    simp only [slotted, exprs, List.flatMap_append, List.map_append, heldAt, Clause.exprs]
  rw [slots]
  refine .trans ?_ (items.append_right _)
  simp only [heldIn, Place.all, Place.searched, Place.checked, Place.own, List.cons_append, List.nil_append,
    List.flatMap_cons, List.flatMap_nil, List.append_nil]
  rw [← Multiset.coe_eq_coe]
  simp only [← Multiset.coe_add]
  abel

theorem parts_eq (q : Query) : q.parts = q.heldIn Place.searched := by
  rw [heldIn, Place.searched, List.flatMap_cons, List.flatMap_singleton]
  rfl

/-- A query has more levels than one that it holds. -/
theorem length_levels_lt (held : sub ∈ q.listed ∨ sub ∈ q.slotted) :
    sub.levels.length < q.levels.length := by
  have inside : sub.levels.Sublist ((q.listed ++ q.slotted).flatMap levels) :=
    List.sublist_flatten_of_mem (List.mem_map_of_mem (List.mem_append.mpr held))
  rw [q.levels_held, List.length_cons]
  exact Nat.lt_succ_of_le inside.length_le

end Query

end Holding

namespace Query

/-- The sub-queries that are reached, at any depth, by entering some places of each level. Correlated
queries are not entered. -/
def reachedIn (places : List Place) (q : Query) : List Query :=
  (q.heldIn places).attach.flatMap fun ⟨sub, _⟩ =>
    if sub.isCorrelated then [] else sub :: sub.reachedIn places
termination_by q.levels.length
decreasing_by exact length_levels_lt (held_of_heldIn ‹_›)

/-- What is reached with a sub-query: the query and what is reached below it, unless it is correlated. -/
def reachedWith (places : List Place) (q : Query) : List Query :=
  if q.isCorrelated then [] else q :: q.reachedIn places

variable {q sub found : Query} {places : List Place}

theorem reachedIn_eq (places : List Place) (q : Query) :
    q.reachedIn places = (q.heldIn places).flatMap (reachedWith places) := by
  rw [reachedIn]
  exact (List.flatMap_subtype fun sub _ => rfl).trans (by rw [List.unattach_attach]; rfl)

theorem mem_reachedWith : found ∈ sub.reachedWith places
    ↔ sub.isCorrelated = false ∧ (found = sub ∨ found ∈ sub.reachedIn places) := by
  unfold reachedWith
  cases sub.isCorrelated with
  | true => simp
  | false => simp

/-- What is reached is a level of the query. -/
theorem mem_levels_of_reachedIn (q : Query) : ∀ {found}, found ∈ q.reachedIn places → found ∈ q.levels := by
  induction q using nestedInduction with
  | level q ihListed ihSlotted =>
    intro found member
    rw [reachedIn_eq] at member
    obtain ⟨sub, held, reached⟩ := List.mem_flatMap.mp member
    have place := held_of_heldIn held
    refine mem_levels.mpr (.inr ⟨sub, place, ?_⟩)
    rcases (mem_reachedWith.mp reached).2 with rfl | below
    · exact found.self_mem_levels
    · exact place.elim (fun listed => ihListed sub listed below) fun slotted => ihSlotted sub slotted below

theorem mem_levels_of_reachedWith (reached : found ∈ q.reachedWith places) : found ∈ q.levels := by
  rcases (mem_reachedWith.mp reached).2 with rfl | below
  · exact found.self_mem_levels
  · exact q.mem_levels_of_reachedIn below

/-- The queries cut out of a level are those that are reached by its search and aggregate. -/
theorem cuts_eq_reachedIn (q : Query) :
    q.cuts = (q.reachedIn Place.searched).filter isAggregateLevel := by
  induction q using nestedInduction with
  | level q ihListed ihSlotted =>
    rw [cuts_eq, parts_eq, reachedIn_eq, List.filter_flatMap]
    refine List.flatMap_congr fun sub held => ?_
    have below : sub.cuts = (sub.reachedIn Place.searched).filter isAggregateLevel :=
      (held_of_heldIn held).elim (ihListed sub) (ihSlotted sub)
    unfold cut reachedWith
    cases sub.isCorrelated with
    | true => rfl
    | false => cases level : sub.isAggregateLevel <;> simp [level, below]

end Query

end ApproxQuery
