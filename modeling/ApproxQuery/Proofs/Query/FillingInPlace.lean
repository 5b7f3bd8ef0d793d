import ApproxQuery.Proofs.Query.Fillable
import ApproxQuery.Proofs.Query.InPlace
import Mathlib.Algebra.Order.BigOperators.Group.List
import Mathlib.Algebra.Order.Group.Nat

/-! Filling in place. The walk goes on into the content that it has just put in place of a placeholder,
so it comes to an end only where the content has nothing to fill; then it makes what filling makes,
and counts the placeholders that are gone. -/
namespace ApproxQuery

section Visits

variable (node : NodeId) (content : Query)

/-- Puts the content in place of the node's placeholders in a join tree, and counts them. -/
def FromItem.fillInPlace : FromItem → Tallying Nat FromItem
  | .placeholder ref =>
    if ref.node = node then do
      modify (· + 1)
      return .subquery { content with asName := some ref.asName }
    else return .placeholder ref
  | .join left right kind on => do
    return .join (← left.fillInPlace) (← right.fillInPlace) kind on
  | .table t => pure (.table t)
  | .subquery query => pure (.subquery query)

/-- Fills the from-list of a level, unless the level is a marker of the node. -/
def Query.visitTables (level : Query) : Tallying Nat Query :=
  if level.marker? = some node then pure level
  else do
    let fromList ← level.fromList.mapM (FromItem.fillInPlace node content)
    return { level with fromList }

/-- Puts the content in place of a marker of the node, and counts it. -/
def Query.fillSlot (slot : Query) : Tallying Nat Query :=
  if slot.marker? = some node then do
    modify (· + 1)
    return { content with asName := none }
  else pure slot

/-- Fills the slots of a level's expressions. -/
def Query.visitMarkers : Query → Tallying Nat Query :=
  changeExprs (Expr.replaceSlots fun _ => fillSlot node content)

end Visits

/-- A way of filling: what a visit makes of a level and counts there, and what is made and counted in
the end. -/
structure Filling (content : Query) where
  visit : Query → Tallying Nat Query
  next : Query → Query
  own : Query → Nat
  fill : Query → Query
  sites : Query → Nat
  visited : ∀ q, Tallies (visit q) (next q) (own q)
  sites_eq : ∀ q, sites q = own q + (q.held.map sites).sum
  own_rename : ∀ (q : Query) asName, own { q with asName } = own q
  /-- A visit that counts nothing changes nothing. -/
  next_eq_self : ∀ {q}, own q = 0 → next q = q
  /-- What the visited level holds, it held before, or it is the content. -/
  held_next : ∀ {q sub}, sub ∈ (next q).held → sub ∈ q.held ∨ ∃ asName, sub = { content with asName }
  /-- Where something is counted, the content is put. -/
  placed : ∀ {q}, own q ≠ 0 → ∃ asName, { content with asName } ∈ (next q).held
  /-- What still has something to fill is not put aside. -/
  kept : ∀ {q sub}, sub ∈ q.held → sites sub ≠ 0 → sub ∈ (next q).held
  sum_next : (∀ asName, sites { content with asName } = 0) →
    ∀ q, ((next q).held.map sites).sum = (q.held.map sites).sum
  /-- Filling goes by levels, when it leaves the content as it is wherever that is put. -/
  fill_eq : ∀ {q}, (own q ≠ 0 → ∀ asName, fill { content with asName } = { content with asName }) →
    (next q).mapHeld fill = fill q

namespace Filling

open Query (Walked heldInduction walked_of_held walk_fails)

variable {content : Query} (way : Filling content)

theorem sites_rename (q : Query) (asName : Option String) : way.sites { q with asName } = way.sites q := by
  rw [way.sites_eq, way.sites_eq, way.own_rename]
  rfl

theorem none_below {q : Query} (none : way.sites q = 0) :
    way.own q = 0 ∧ ∀ sub ∈ q.held, way.sites sub = 0 := by
  rw [way.sites_eq] at none
  obtain ⟨own, below⟩ := Nat.eq_zero_of_add_eq_zero none
  exact ⟨own, fun sub held => List.sum_eq_zero_iff.mp below _ (List.mem_map_of_mem held)⟩

/-- Where there is nothing to fill, filling changes nothing. -/
theorem fill_of_no_site {q : Query} (none : way.sites q = 0) : way.fill q = q := by
  induction q using heldInduction with
  | level q ih =>
    obtain ⟨own, below⟩ := way.none_below none
    have filled := way.fill_eq fun some => absurd own some
    rw [way.next_eq_self own] at filled
    exact filled.symm.trans (Query.mapHeld_eq_self fun sub held => ih sub held (below sub held))

/-- A walk into a query with nothing to fill leaves it as it is. -/
theorem walked_of_no_site {q : Query} (none : way.sites q = 0) : Walked way.visit q q 0 := by
  induction q using heldInduction with
  | level q ih =>
    obtain ⟨own, below⟩ := way.none_below none
    have visited := way.visited q
    rw [own, way.next_eq_self own] at visited
    have whole := walked_of_held visited fun sub held => ih sub held (below sub held)
    rw [Query.mapHeld_eq_self fun _ _ => rfl] at whole
    simpa using whole

/-- Filling in place makes what filling makes, when the content has nothing to fill. -/
theorem walked (closed : way.sites content = 0) (q : Query) :
    Walked way.visit q (way.fill q) (way.sites q) := by
  have quiet (asName : Option String) : way.sites { content with asName } = 0 :=
    (way.sites_rename content asName).trans closed
  induction q using heldInduction with
  | level q ih =>
    -- The content is no part of the query, so the induction does not reach it: the walk leaves it alone.
    have below : ∀ sub ∈ (way.next q).held, Walked way.visit sub (way.fill sub) (way.sites sub) := by
      intro sub held
      rcases way.held_next held with old | ⟨asName, rfl⟩
      · exact ih sub old
      · rw [way.fill_of_no_site (quiet asName), quiet asName]
        exact way.walked_of_no_site (quiet asName)
    have whole := walked_of_held (way.visited q) below
    rwa [way.fill_eq fun _ asName => way.fill_of_no_site (quiet asName), way.sum_next quiet, ← way.sites_eq]
      at whole

/-- A query with something to fill stays one, when the content is another. -/
theorem fails (again : way.sites content ≠ 0) {q : Query} (here : way.sites q ≠ 0) (depth : Nat) :
    Fails (q.walkInPlace way.visit depth) := by
  refine walk_fails (fun q => way.sites q ≠ 0) (fun q here tally level tally' done => ?_) depth here
  obtain ⟨rfl, _⟩ := Prod.mk.inj (Option.some.inj ((way.visited q tally).symm.trans done))
  -- Either something is to be filled further down, or the content has just been put here.
  by_cases own : way.own q = 0
  · rw [way.sites_eq, own, Nat.zero_add] at here
    obtain ⟨_, among, more⟩ := List.exists_mem_ne_zero_of_sum_ne_zero here
    obtain ⟨sub, held, rfl⟩ := List.mem_map.mp among
    exact ⟨sub, way.kept held more, more⟩
  · obtain ⟨asName, held⟩ := way.placed own
    exact ⟨_, held, (way.sites_rename content asName).symm ▸ again⟩

/-- Filling in place comes to an end just where there is nothing to fill, in the query or in the content. -/
theorem walked_iff {q : Query} :
    (∃ after added, Walked way.visit q after added) ↔ way.sites q = 0 ∨ way.sites content = 0 := by
  constructor
  · rintro ⟨after, added, depth, reached⟩
    by_contra neither
    obtain ⟨here, again⟩ := not_or.mp neither
    cases (way.fails again here depth 0).symm.trans (reached depth (Nat.le_refl depth) 0)
  · rintro (none | closed)
    · exact ⟨q, 0, way.walked_of_no_site none⟩
    · exact ⟨_, _, way.walked closed q⟩

end Filling

variable {node : NodeId} {content : Query}

private theorem tallies_count {α : Type} (value : α) :
    Tallies (do modify (· + 1); return value : Tallying Nat α) value 1 := fun _ => rfl

section Tables

/-- The placeholders that a visit fills at a level. -/
private def ownRefs (node : NodeId) (level : Query) : List PlaceholderRef :=
  if level.marker? = some node then [] else level.directPlaceholders.filter fun ref => ref.node = node

/-- A level with its own placeholders of the node filled. -/
private def tablesFilled (node : NodeId) (content level : Query) : Query :=
  if level.marker? = some node then level
  else level.mapParts (FromItem.fill node content) fun e => e

/-- What is put in place of a placeholder. -/
private def standIn (content : Query) (ref : PlaceholderRef) : Query :=
  { content with asName := some ref.asName }

namespace FromItem

theorem tallies_fillInPlace (item : FromItem) : Tallies (item.fillInPlace node content)
    (item.fill node content) (item.directPlaceholders.filter fun ref => ref.node = node).length := by
  induction item using treeInduction with
  | table t => exact tallies_pure _
  | subquery q => exact tallies_pure _
  | join left right kind on ihLeft ihRight =>
    rw [directPlaceholders, List.filter_append, List.length_append]
    exact ihLeft.bind (ihRight.map _)
  | placeholder ref =>
    unfold fillInPlace fill directPlaceholders
    by_cases own : ref.node = node
    · simp only [own, if_true, List.filter_cons, decide_true, List.filter_nil]
      exact tallies_count _
    · simp only [own, if_false, List.filter_cons, decide_false, List.filter_nil]
      exact tallies_pure _

private theorem fill_eq_self {item : FromItem}
    (unread : item.directPlaceholders.filter (fun ref => ref.node = node) = []) :
    item.fill node content = item := by
  induction item using treeInduction with
  | table t => rfl
  | subquery q => rfl
  | join left right kind on ihLeft ihRight =>
    rw [directPlaceholders, List.filter_append, List.append_eq_nil_iff] at unread
    rw [fill, ihLeft unread.1, ihRight unread.2]
  | placeholder ref =>
    have other : ref.node ≠ node := by simpa [directPlaceholders] using unread
    rw [fill, if_neg other]

/-- A join tree that is filled holds what it held, and the content for each placeholder that is gone. -/
private theorem listed_fill (item : FromItem) : (item.fill node content).listed.Perm (item.listed
    ++ (item.directPlaceholders.filter fun ref => ref.node = node).map (standIn content)) := by
  induction item using treeInduction with
  | table t => exact .refl _
  | subquery q => exact .refl _
  | join left right kind on ihLeft ihRight =>
    rw [fill, listed, listed, directPlaceholders, List.filter_append, List.map_append]
    refine ((ihLeft.append ihRight).append_right _).trans ?_
    simp only [List.append_assoc]
    refine .append_left _ ((List.perm_append_comm_assoc _ _ _).trans (.append_left _ ?_))
    rw [← List.append_assoc]
    exact List.perm_append_comm
  | placeholder ref =>
    unfold fill directPlaceholders
    by_cases own : ref.node = node
    · simp [own, listed, standIn]
    · simp [own, listed]

/-- Filling a join tree and then below it is filling the item, when the content is left as it is. -/
private theorem mapHeld_fill {item : FromItem} (same : ∀ ref ∈ item.directPlaceholders, ref.node = node →
      (standIn content ref).fillTables node content = standIn content ref) :
    (item.fill node content).mapHeld (fun sub => sub.fillTables node content) = item.fillTables node content := by
  induction item using treeInduction with
  | table t => rfl
  | subquery q => rfl
  | join left right kind on ihLeft ihRight =>
    obtain ⟨inLeft, inRight⟩ := List.forall_mem_append.mp same
    rw [fill, mapHeld, ihLeft inLeft, ihRight inRight, fillTables_join]
  | placeholder ref =>
    rw [fill, fillTables_placeholder]
    split
    · rename_i own
      exact congrArg FromItem.subquery (same ref List.mem_cons_self own)
    · rfl

end FromItem

namespace Query

theorem held_of_marker {q : Query} (marker : q.marker? = some node) : q.held = [] := by
  obtain ⟨ref, asName, _, rfl⟩ := marker?_eq_some.mp marker
  rfl

private theorem tallies_visitTables (node : NodeId) (content q : Query) :
    Tallies (visitTables node content q) (tablesFilled node content q) (ownRefs node q).length := by
  unfold visitTables tablesFilled ownRefs
  split
  · exact tallies_pure q
  · have parts : q.mapParts (FromItem.fill node content) (fun e => e)
        = { q with fromList := q.fromList.map (FromItem.fill node content) } := by
      refine Eq.trans ?_ (mapParts_id _)
      rw [mapParts, mapParts]
      simp only [List.map_id']
    rw [parts, directPlaceholders, List.filter_flatMap, List.length_flatMap]
    exact (tallies_mapM fun item _ => item.tallies_fillInPlace).map _

private theorem held_tablesFilled (node : NodeId) (content q : Query) :
    (tablesFilled node content q).held.Perm (q.held ++ (ownRefs node q).map (standIn content)) := by
  unfold tablesFilled ownRefs
  split
  · rw [List.map_nil, List.append_nil]
  · have inItems : (q.mapParts (FromItem.fill node content) fun e => e).listed.Perm (q.listed
        ++ (q.directPlaceholders.filter fun ref => ref.node = node).map (standIn content)) := by
      simp only [listed, fromList_mapParts, directPlaceholders, List.flatMap_map, List.filter_flatMap,
        List.map_flatMap]
      exact (List.Perm.flatMap_left _ fun item _ => item.listed_fill).trans (List.flatMap_append_perm _ _ _).symm
    have inSlots : (q.mapParts (FromItem.fill node content) fun e => e).slotted = q.slotted := by
      rw [slotted, exprs_mapParts, List.map_id', slotted]
    rw [held, inSlots]
    refine (inItems.append_right q.slotted).trans ?_
    rw [held, List.append_assoc, List.append_assoc]
    exact .append_left _ List.perm_append_comm

private theorem tablesFilled_eq_self {q : Query} (none : ownRefs node q = []) :
    tablesFilled node content q = q := by
  unfold tablesFilled
  unfold ownRefs at none
  split
  · rfl
  · rename_i unmarked
    rw [if_neg unmarked, directPlaceholders, List.filter_flatMap, List.flatMap_eq_nil_iff] at none
    exact mapParts_eq_self (fun item own => FromItem.fill_eq_self (none item own)) fun _ _ => rfl

private theorem mapHeld_tablesFilled {q : Query} (same : ownRefs node q ≠ [] →
      ∀ asName, fillTables { content with asName } node content = { content with asName }) :
    (tablesFilled node content q).mapHeld (fillTables · node content) = q.fillTables node content := by
  unfold tablesFilled
  unfold ownRefs at same
  split
  · rename_i marker
    rw [fillTables_of_marker node content marker]
    exact mapHeld_eq_self fun sub held => by
      rw [held_of_marker marker] at held
      cases held
  · rename_i unmarked
    rw [if_neg unmarked] at same
    rw [fillTables_of_not_marker node content unmarked, mapHeld, mapParts_mapParts]
    refine mapParts_congr (fun item inList => FromItem.mapHeld_fill fun ref direct own => ?_) fun _ _ => rfl
    have read : ref ∈ q.directPlaceholders := List.mem_flatMap.mpr ⟨item, inList, direct⟩
    exact same (List.ne_nil_of_mem (List.mem_filter.mpr ⟨read, decide_eq_true own⟩)) _

/-- Filling the placeholders of from-lists. -/
def tableFilling (node : NodeId) (content : Query) : Filling content where
  visit := visitTables node content
  next := tablesFilled node content
  own := fun q => (ownRefs node q).length
  fill := fun q => q.fillTables node content
  sites := fun q => q.tableSites node
  visited := tallies_visitTables node content
  sites_eq := fun q => q.length_flatMap_levels (ownRefs node)
  own_rename := by
    intro q asName
    rw [ownRefs, ownRefs, marker?_rename]
    rfl
  next_eq_self := fun none => tablesFilled_eq_self (List.length_eq_zero_iff.mp none)
  held_next := by
    intro q sub member
    rcases List.mem_append.mp ((held_tablesFilled node content q).mem_iff.mp member) with old | new
    · exact .inl old
    · obtain ⟨ref, _, rfl⟩ := List.mem_map.mp new
      exact .inr ⟨_, rfl⟩
  placed := by
    intro q some
    obtain ⟨ref, own⟩ := List.exists_mem_of_ne_nil _ (mt List.length_eq_zero_iff.mpr some)
    exact ⟨_, (held_tablesFilled node content q).mem_iff.mpr
      (List.mem_append_right _ (List.mem_map_of_mem own))⟩
  kept := fun held _ => (held_tablesFilled node content _).mem_iff.mpr (List.mem_append_left _ held)
  sum_next := by
    intro quiet q
    have added : ((ownRefs node q).map fun ref => (standIn content ref).tableSites node).sum = 0 := by
      simp [standIn, quiet]
    rw [((held_tablesFilled node content q).map _).sum_eq, List.map_append, List.sum_append, List.map_map]
    exact congrArg _ added
  fill_eq := fun same => mapHeld_tablesFilled fun some => same (mt List.length_eq_zero_iff.mp some)

end Query

end Tables

section Markers

/-- How much a slot counts: one for a marker of the node. -/
private def slotSites (node : NodeId) (slot : Query) : Nat := if slot.marker? = some node then 1 else 0

/-- What a slot holds once it is visited. -/
private def slotFilled (node : NodeId) (content slot : Query) : Query :=
  if slot.marker? = some node then { content with asName := none } else slot

/-- The slots that a visit fills at a level. -/
private def ownMarkers (node : NodeId) (level : Query) : List (SubqueryKind × Query) :=
  (level.exprs.flatMap Expr.slots).filter fun slot => slot.2.marker? = some node

/-- A level with the markers in its own slots filled. -/
private def markersFilled (node : NodeId) (content level : Query) : Query :=
  level.mapParts (fun item => item) (Expr.mapSlots (slotFilled node content))

theorem FromItem.fillMarkers_eq_mapHeld (item : FromItem) :
    item.fillMarkers node content = item.mapHeld fun sub => sub.fillMarkers node content := by
  induction item using FromItem.treeInduction with
  | table t => rfl
  | subquery q => exact FromItem.fillMarkers_subquery node content q
  | join left right kind on ihLeft ihRight => rw [FromItem.fillMarkers_join, FromItem.mapHeld, ihLeft, ihRight]
  | placeholder ref => rfl

namespace Query

private theorem tallies_fillSlot (slot : Query) :
    Tallies (fillSlot node content slot) (slotFilled node content slot) (slotSites node slot) := by
  unfold fillSlot slotFilled slotSites
  split
  · exact tallies_count _
  · exact tallies_pure slot

private theorem tallies_visitMarkers (node : NodeId) (content q : Query) :
    Tallies (visitMarkers node content q) (markersFilled node content q) (ownMarkers node q).length := by
  have own : (ownMarkers node q).length
      = (q.exprs.map fun e => (e.slots.map fun slot => slotSites node slot.2).sum).sum := by
    rw [ownMarkers, List.filter_flatMap, List.length_flatMap]
    simp only [← List.countP_eq_length_filter, ← sum_indicator, decide_eq_true_eq, slotSites]
  rw [own]
  exact tallies_changeExprs fun e _ => Expr.tallies_replaceSlots fun slot _ => tallies_fillSlot slot.2

theorem markerSites_of_marker {q : Query} (marker : q.marker? = some node) : q.markerSites node = 0 := by
  obtain ⟨ref, asName, _, rfl⟩ := marker?_eq_some.mp marker
  rfl

private theorem held_markersFilled (node : NodeId) (content q : Query) :
    (markersFilled node content q).held = q.listed ++ q.slotted.map (slotFilled node content) := by
  rw [held, markersFilled, slotted_mapParts, listed, fromList_mapParts, List.map_id', listed]

private theorem mem_ownMarkers {q : Query} {e : Expr} {slot : SubqueryKind × Query} (own : e ∈ q.exprs)
    (inSlots : slot ∈ e.slots) (marker : slot.2.marker? = some node) : slot ∈ ownMarkers node q :=
  List.mem_filter.mpr ⟨List.mem_flatMap.mpr ⟨e, own, inSlots⟩, decide_eq_true marker⟩

private theorem markersFilled_eq_self {q : Query} (none : ownMarkers node q = []) :
    markersFilled node content q = q := by
  refine mapParts_eq_self (fun _ _ => rfl) fun e own => Expr.mapSlots_eq_self fun slot inSlots => if_neg ?_
  intro marker
  have found := mem_ownMarkers own inSlots marker
  rw [none] at found
  cases found

private theorem mapHeld_markersFilled {q : Query} (same : ownMarkers node q ≠ [] →
      ∀ asName, fillMarkers { content with asName } node content = { content with asName }) :
    (markersFilled node content q).mapHeld (fillMarkers · node content) = q.fillMarkers node content := by
  rw [fillMarkers_eq, mapHeld, markersFilled, mapParts_mapParts]
  refine mapParts_congr (fun item _ => item.fillMarkers_eq_mapHeld.symm) fun e own => ?_
  rw [Expr.mapSlots_mapSlots]
  refine Expr.mapSlots_congr fun slot inSlots => ?_
  unfold slotFilled
  split
  · rename_i marker
    exact same (List.ne_nil_of_mem (mem_ownMarkers own inSlots marker)) none
  · rfl

/-- Filling the markers in slots. -/
def markerFilling (node : NodeId) (content : Query) : Filling content where
  visit := visitMarkers node content
  next := markersFilled node content
  own := fun q => (ownMarkers node q).length
  fill := fun q => q.fillMarkers node content
  sites := fun q => q.markerSites node
  visited := tallies_visitMarkers node content
  sites_eq := fun q => q.length_flatMap_levels (ownMarkers node)
  own_rename := fun _ _ => rfl
  next_eq_self := fun none => markersFilled_eq_self (List.length_eq_zero_iff.mp none)
  held_next := by
    intro q sub member
    rw [held_markersFilled] at member
    rcases List.mem_append.mp member with listed | filled
    · exact .inl (List.mem_append_left _ listed)
    · obtain ⟨slot, slotted, rfl⟩ := List.mem_map.mp filled
      unfold slotFilled
      split
      · exact .inr ⟨_, rfl⟩
      · exact .inl (List.mem_append_right _ slotted)
  placed := by
    intro q some
    obtain ⟨slot, own⟩ := List.exists_mem_of_ne_nil _ (mt List.length_eq_zero_iff.mpr some)
    obtain ⟨inSlots, marker⟩ := List.mem_filter.mp own
    have filled : slotFilled node content slot.2 = { content with asName := none } :=
      if_pos (of_decide_eq_true marker)
    refine ⟨none, ?_⟩
    rw [held_markersFilled, ← filled]
    exact List.mem_append_right _ (List.mem_map_of_mem (List.mem_map_of_mem inSlots))
  kept := by
    intro q sub held some
    have unmarked : sub.marker? ≠ _ := fun marker => some (markerSites_of_marker marker)
    rw [held_markersFilled]
    refine List.mem_append.mpr ((List.mem_append.mp held).imp_right fun slotted => ?_)
    exact List.mem_map.mpr ⟨sub, slotted, if_neg unmarked⟩
  sum_next := by
    intro quiet q
    have same (sub : Query) : (slotFilled node content sub).markerSites node = sub.markerSites node := by
      unfold slotFilled
      split
      · rename_i marker
        rw [quiet, markerSites_of_marker marker]
      · rfl
    rw [held_markersFilled, held, List.map_append, List.map_append, List.map_map]
    simp only [Function.comp_def, same]
  fill_eq := fun same => mapHeld_markersFilled fun some => same (mt List.length_eq_zero_iff.mp some)

end Query

end Markers

end ApproxQuery
