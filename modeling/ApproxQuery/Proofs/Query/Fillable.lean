import ApproxQuery.Proofs.Query.Placeholders

/-! Queries in which every placeholder is found when it is to be filled. A marker is looked for in
the slots of expressions only, so none may stand elsewhere; filling with such queries keeps that. -/
namespace ApproxQuery

/-- Below its top, a query has markers only in the slots of expressions. -/
def Query.MarkersInSlots (q : Query) : Prop :=
  ∀ level ∈ q.levels, ∀ sub ∈ level.listed, sub.marker? = none

/-- Below its top, a query has a marker of the node elsewhere than in the slots of expressions. -/
def Query.Hides (q : Query) (node : NodeId) : Prop :=
  ∃ level ∈ q.levels, ∃ sub ∈ level.listed, sub.marker? = some node

/-- One of the two ways of filling finds the node. -/
def Query.HasPlace (q : Query) (node : NodeId) : Prop := q.tableSites node ≠ 0 ∨ q.markerSites node ≠ 0

/-- A query all of whose placeholders can be filled. -/
structure Query.Fillable (q : Query) : Prop where
  unmarked : q.marker? = none
  markersInSlots : q.MarkersInSlots

namespace Query

variable {node : NodeId} {q content : Query}

/-- One level at a time. -/
theorem markersInSlots_iff : q.MarkersInSlots ↔ (∀ sub ∈ q.listed, sub.Fillable)
    ∧ ∀ sub ∈ q.slotted, sub.MarkersInSlots := by
  constructor
  · intro clear
    have below {sub} (place : sub ∈ q.listed ∨ sub ∈ q.slotted) : sub.MarkersInSlots :=
      fun level member => clear level (mem_levels.mpr (.inr ⟨sub, place, member⟩))
    exact ⟨fun sub member => ⟨clear q q.self_mem_levels sub member, below (.inl member)⟩,
      fun sub member => below (.inr member)⟩
  · rintro ⟨inItems, inSlots⟩ level member
    rcases mem_levels.mp member with rfl | ⟨sub, place, inside⟩
    · exact fun sub listed => (inItems sub listed).unmarked
    · exact place.elim (fun listed => (inItems sub listed).markersInSlots level inside)
        fun slotted => inSlots sub slotted level inside

theorem markersInSlots_iff_hides : q.MarkersInSlots ↔ ∀ node, ¬ q.Hides node := by
  constructor
  · rintro clear node ⟨level, member, sub, listed, marker⟩
    cases (clear level member sub listed).symm.trans marker
  · intro clear level member sub listed
    cases marker : sub.marker? with
    | none => rfl
    | some node => exact absurd ⟨level, member, sub, listed, marker⟩ (clear node)

theorem Hides.rename (hides : q.Hides node) (asName : Option String) :
    ({ q with asName } : Query).Hides node := by
  obtain ⟨level, member, sub, listed, marker⟩ := hides
  rcases mem_levels.mp member with rfl | below
  · exact ⟨_, self_mem_levels _, sub, listed, marker⟩
  · exact ⟨level, mem_levels.mpr (.inr below), sub, listed, marker⟩

theorem markersInSlots_rename (asName : Option String) :
    ({ q with asName } : Query).MarkersInSlots ↔ q.MarkersInSlots := by
  rw [markersInSlots_iff, markersInSlots_iff]
  rfl

theorem Fillable.rename (fillable : q.Fillable) (asName : Option String) :
    ({ q with asName } : Query).Fillable where
  unmarked := (marker?_rename q asName).trans fillable.unmarked
  markersInSlots := (markersInSlots_rename asName).mpr fillable.markersInSlots

/-- A marker holds nothing in its from-list but the placeholder. -/
theorem markersInSlots_of_marker (marker : q.marker? = some node) : q.MarkersInSlots := by
  obtain ⟨ref, asName, _, rfl⟩ := marker?_eq_some.mp marker
  refine markersInSlots_iff.mpr ⟨fun sub member => ?_, fun sub member => ?_⟩
  · cases member
  · cases member

/-- Without placeholders there is no marker at any level. -/
theorem Fillable.of_closed (closed : q.placeholders = []) : q.Fillable := by
  have unmarked (level) (member : level ∈ q.levels) : level.marker? = none := by
    cases marker : level.marker? with
    | none => rfl
    | some node =>
      obtain ⟨ref, asName, _, rfl⟩ := marker?_eq_some.mp marker
      have read : ref ∈ q.placeholders := List.mem_flatMap.mpr ⟨_, member, List.mem_cons_self⟩
      rw [closed] at read
      cases read
  refine ⟨unmarked q q.self_mem_levels, fun level member sub listed => unmarked sub ?_⟩
  exact mem_levels_trans member (mem_levels.mpr (.inr ⟨sub, .inl listed, sub.self_mem_levels⟩))

/-- A placeholder that no filling finds stands in a marker, at the top or hidden. -/
theorem hasPlace_or_marker {ref : PlaceholderRef} (member : ref ∈ q.placeholders) :
    q.HasPlace ref.node ∨ q.marker? = some ref.node ∨ q.Hides ref.node := by
  obtain ⟨level, inLevels, direct⟩ := List.mem_flatMap.mp member
  by_cases marker : level.marker? = some ref.node
  · rcases holder_of_mem_levels inLevels with rfl | ⟨outer, among, listed | slotted⟩
    · exact .inr (.inl marker)
    · exact .inr (.inr ⟨outer, among, level, listed, marker⟩)
    · obtain ⟨e, own, slot, inSlots, rfl⟩ := mem_slotted.mp slotted
      have found : slot ∈ (outer.exprs.flatMap Expr.slots).filter fun slot =>
          slot.2.marker? = some ref.node :=
        List.mem_filter.mpr ⟨List.mem_flatMap.mpr ⟨e, own, inSlots⟩, decide_eq_true marker⟩
      refine .inl (.inr ?_)
      exact mt List.length_eq_zero_iff.mp (List.ne_nil_of_mem (List.mem_flatMap.mpr ⟨outer, among, found⟩))
  · have inRefs : ref ∈ q.tableRefs ref.node := by
      refine List.mem_flatMap.mpr ⟨level, inLevels, ?_⟩
      rw [if_neg marker]
      exact List.mem_filter.mpr ⟨direct, decide_eq_true rfl⟩
    exact .inl (.inl (mt List.length_eq_zero_iff.mp (List.ne_nil_of_mem inRefs)))

/-- Every placeholder of a fillable query is found, in a from-list or at a marker. -/
theorem Fillable.found (fillable : q.Fillable) {ref : PlaceholderRef}
    (member : ref ∈ q.placeholders) : q.HasPlace ref.node := by
  rcases hasPlace_or_marker member with found | marker | hides
  · exact found
  · cases fillable.unmarked.symm.trans marker
  · exact absurd hides (markersInSlots_iff_hides.mp fillable.markersInSlots ref.node)

end Query

section Filling

variable {node : NodeId} {content : Query}

/-- What an item holds once tables are filled was held before, or is the content. -/
theorem FromItem.listed_fillTables {item : FromItem} {sub : Query}
    (member : sub ∈ (item.fillTables node content).listed) :
    (∃ before ∈ item.listed, sub = before.fillTables node content)
      ∨ ∃ name, sub = { content with asName := some name } := by
  induction item using FromItem.treeInduction with
  | table t => cases member
  | subquery q => exact .inl ⟨q, List.mem_cons_self, List.mem_singleton.mp member⟩
  | join left right kind on ihLeft ihRight =>
    rw [fillTables_join, mem_listed_join] at member
    simp only [mem_listed_join]
    rcases member with inLeft | inRight | ⟨e, condition, slot, inSlots, rfl⟩
    · refine (ihLeft inLeft).imp_left ?_
      rintro ⟨before, held, same⟩
      exact ⟨before, .inl held, same⟩
    · refine (ihRight inRight).imp_left ?_
      rintro ⟨before, held, same⟩
      exact ⟨before, .inr (.inl held), same⟩
    · obtain ⟨e', own, rfl⟩ := Option.map_eq_some_iff.mp condition
      rw [Expr.slots_mapSlots] at inSlots
      obtain ⟨slot', inSlots', rfl⟩ := List.mem_map.mp inSlots
      exact .inl ⟨slot'.2, .inr (.inr ⟨e', own, slot', inSlots', rfl⟩), rfl⟩
  | placeholder ref =>
    rw [fillTables_placeholder] at member
    split at member
    · exact .inr ⟨ref.asName, List.mem_singleton.mp member⟩
    · cases member

theorem FromItem.listed_fillMarkers (item : FromItem) :
    (item.fillMarkers node content).listed = item.listed.map fun sub => sub.fillMarkers node content := by
  induction item using FromItem.treeInduction with
  | table t => rfl
  | subquery q => rw [fillMarkers_subquery]; rfl
  | join left right kind on ihLeft ihRight =>
    rw [fillMarkers_join, listed, listed, ihLeft, ihRight]
    cases on <;> simp
  | placeholder ref => rfl

theorem Query.slotted_mapParts (onItem : FromItem → FromItem) (change : Query → Query) (q : Query) :
    (q.mapParts onItem (Expr.mapSlots change)).slotted = q.slotted.map change := by
  simp only [slotted, exprs_mapParts, List.flatMap_map, Expr.slots_mapSlots, List.map_flatMap,
    List.map_map]
  rfl

/-- Filling tables with a fillable query leaves markers in slots only. -/
theorem Query.MarkersInSlots.fillTables {q : Query} (clear : q.MarkersInSlots)
    (filling : content.Fillable) : (q.fillTables node content).MarkersInSlots := by
  induction q using nestedInduction with
  | level q ihListed ihSlotted =>
    by_cases marker : q.marker? = some node
    · exact (fillTables_of_marker node content marker).symm ▸ clear
    · obtain ⟨inItems, inSlots⟩ := markersInSlots_iff.mp clear
      rw [fillTables_of_not_marker node content marker, markersInSlots_iff, slotted_mapParts]
      constructor
      · intro sub member
        obtain ⟨item, inList, inItem⟩ := List.mem_flatMap.mp member
        obtain ⟨item', own, rfl⟩ := List.mem_map.mp inList
        rcases FromItem.listed_fillTables inItem with ⟨before, held, rfl⟩ | ⟨name, rfl⟩
        · have listed : before ∈ q.listed := List.mem_flatMap.mpr ⟨item', own, held⟩
          obtain ⟨unmarked, clear⟩ := inItems before listed
          exact ⟨(marker?_fillTables node content before).trans unmarked, ihListed before listed clear⟩
        · exact filling.rename (some name)
      · intro sub member
        obtain ⟨before, held, rfl⟩ := List.mem_map.mp member
        exact ihSlotted before held (inSlots before held)

/-- So does filling markers. -/
theorem Query.MarkersInSlots.fillMarkers {q : Query} (clear : q.MarkersInSlots)
    (filling : content.Fillable) : (q.fillMarkers node content).MarkersInSlots := by
  induction q using nestedInduction with
  | level q ihListed ihSlotted =>
    obtain ⟨inItems, inSlots⟩ := markersInSlots_iff.mp clear
    rw [fillMarkers_eq, markersInSlots_iff, slotted_mapParts]
    constructor
    · intro sub member
      obtain ⟨item, inList, inItem⟩ := List.mem_flatMap.mp member
      obtain ⟨item', own, rfl⟩ := List.mem_map.mp inList
      rw [FromItem.listed_fillMarkers] at inItem
      obtain ⟨before, held, rfl⟩ := List.mem_map.mp inItem
      have listed : before ∈ q.listed := List.mem_flatMap.mpr ⟨item', own, held⟩
      obtain ⟨unmarked, clear⟩ := inItems before listed
      exact ⟨(marker?_fillMarkers node content before).trans unmarked, ihListed before listed clear⟩
    · intro sub member
      obtain ⟨before, held, rfl⟩ := List.mem_map.mp member
      split
      · exact (filling.rename none).markersInSlots
      · exact ihSlotted before held (inSlots before held)

theorem Query.Fillable.fillTables {q : Query} (fillable : q.Fillable) (filling : content.Fillable) :
    (q.fillTables node content).Fillable where
  unmarked := (marker?_fillTables node content q).trans fillable.unmarked
  markersInSlots := fillable.markersInSlots.fillTables filling

theorem Query.Fillable.fillMarkers {q : Query} (fillable : q.Fillable) (filling : content.Fillable) :
    (q.fillMarkers node content).Fillable where
  unmarked := (marker?_fillMarkers node content q).trans fillable.unmarked
  markersInSlots := fillable.markersInSlots.fillMarkers filling

end Filling

section Filled

variable {node other : NodeId} {content q sub : Query}

theorem FromItem.mem_listed_fillTables {item : FromItem} (member : sub ∈ item.listed) :
    sub.fillTables node content ∈ (item.fillTables node content).listed := by
  induction item using FromItem.treeInduction with
  | table t => cases member
  | subquery q => exact List.mem_singleton.mpr (congrArg _ (List.mem_singleton.mp member))
  | join left right kind on ihLeft ihRight =>
    rw [fillTables_join, mem_listed_join]
    rcases mem_listed_join.mp member with inLeft | inRight | ⟨e, condition, slot, inSlots, rfl⟩
    · exact .inl (ihLeft inLeft)
    · exact .inr (.inl (ihRight inRight))
    · refine .inr (.inr ⟨_, Option.map_eq_some_iff.mpr ⟨e, condition, rfl⟩, (slot.1, _), ?_, rfl⟩)
      rw [Expr.slots_mapSlots]
      exact List.mem_map_of_mem inSlots
  | placeholder ref => cases member

/-- A placeholder that is filled gives way to the content. -/
theorem FromItem.content_mem_listed (content : Query) {item : FromItem} {ref : PlaceholderRef}
    (direct : ref ∈ item.directPlaceholders) (own : ref.node = node) :
    ∃ asName, ({ content with asName } : Query) ∈ (item.fillTables node content).listed := by
  induction item using FromItem.treeInduction with
  | table t => cases direct
  | subquery q => cases direct
  | join left right kind on ihLeft ihRight =>
    rw [fillTables_join]
    simp only [mem_listed_join]
    rcases List.mem_append.mp direct with inLeft | inRight
    · obtain ⟨asName, placed⟩ := ihLeft inLeft
      exact ⟨asName, .inl placed⟩
    · obtain ⟨asName, placed⟩ := ihRight inRight
      exact ⟨asName, .inr (.inl placed)⟩
  | placeholder other =>
    obtain rfl := List.mem_singleton.mp direct
    rw [fillTables_placeholder, if_pos own]
    exact ⟨_, List.mem_cons_self⟩

namespace Query

theorem not_held_of_marker (marker : q.marker? = some node) : ¬ (sub ∈ q.listed ∨ sub ∈ q.slotted) := by
  obtain ⟨ref, asName, _, rfl⟩ := marker?_eq_some.mp marker
  rintro (listed | slotted)
  · cases listed
  · cases slotted

/-- What a level holds, it holds filled, unless it is a marker of the node. -/
theorem listed_fillTables (member : sub ∈ q.listed) :
    sub.fillTables node content ∈ (q.fillTables node content).listed := by
  have unmarked : q.marker? ≠ some node := fun marker => not_held_of_marker marker (.inl member)
  obtain ⟨item, inList, inItem⟩ := List.mem_flatMap.mp member
  rw [fillTables_of_not_marker node content unmarked]
  exact List.mem_flatMap.mpr ⟨_, List.mem_map_of_mem inList, FromItem.mem_listed_fillTables inItem⟩

theorem slotted_fillTables (member : sub ∈ q.slotted) :
    sub.fillTables node content ∈ (q.fillTables node content).slotted := by
  have unmarked : q.marker? ≠ some node := fun marker => not_held_of_marker marker (.inr member)
  rw [fillTables_of_not_marker node content unmarked, slotted_mapParts]
  exact List.mem_map_of_mem member

theorem listed_fillMarkers (member : sub ∈ q.listed) :
    sub.fillMarkers node content ∈ (q.fillMarkers node content).listed := by
  obtain ⟨item, inList, inItem⟩ := List.mem_flatMap.mp member
  rw [fillMarkers_eq]
  refine List.mem_flatMap.mpr ⟨_, List.mem_map_of_mem inList, ?_⟩
  rw [FromItem.listed_fillMarkers]
  exact List.mem_map_of_mem inItem

theorem slotted_fillMarkers (node : NodeId) (content : Query) (member : sub ∈ q.slotted) :
    (if sub.marker? = some node then { content with asName := none } else sub.fillMarkers node content)
      ∈ (q.fillMarkers node content).slotted := by
  rw [fillMarkers_eq, slotted_mapParts]
  exact List.mem_map_of_mem (f := fun slot : Query =>
    if slot.marker? = some node then { content with asName := none } else slot.fillMarkers node content) member

/-- Filling tables keeps every level, filled. -/
theorem mem_levels_fillTables (q : Query) {level : Query} :
    level ∈ q.levels → level.fillTables node content ∈ (q.fillTables node content).levels := by
  induction q using nestedInduction with
  | level q ihListed ihSlotted =>
    intro member
    rcases mem_levels.mp member with rfl | ⟨sub, place, inside⟩
    · exact self_mem_levels _
    · refine mem_levels.mpr (.inr ⟨_, place.imp listed_fillTables slotted_fillTables, ?_⟩)
      exact place.elim (fun listed => ihListed sub listed inside) fun slotted => ihSlotted sub slotted inside

/-- Filling markers keeps every level but them. -/
theorem mem_levels_fillMarkers (q : Query) {level : Query} (unmarked : level.marker? ≠ some node) :
    level ∈ q.levels → level.fillMarkers node content ∈ (q.fillMarkers node content).levels := by
  induction q using nestedInduction with
  | level q ihListed ihSlotted =>
    intro member
    rcases mem_levels.mp member with rfl | ⟨sub, listed | slotted, inside⟩
    · exact self_mem_levels _
    · exact mem_levels.mpr (.inr ⟨_, .inl (listed_fillMarkers listed), ihListed sub listed inside⟩)
    · have held := slotted_fillMarkers node content slotted
      by_cases marker : sub.marker? = some node
      · rcases mem_levels.mp inside with rfl | ⟨_, below, _⟩
        · exact absurd marker unmarked
        · exact absurd below (not_held_of_marker marker)
      · rw [if_neg marker] at held
        exact mem_levels.mpr (.inr ⟨_, .inr held, ihSlotted sub slotted inside⟩)

/-- Filling tables leaves what is hidden. -/
theorem Hides.fillTables (hides : q.Hides other) : (q.fillTables node content).Hides other := by
  obtain ⟨level, member, sub, listed, marker⟩ := hides
  exact ⟨_, mem_levels_fillTables q member, _, listed_fillTables listed,
    (marker?_fillTables node content sub).trans marker⟩

/-- So does filling markers. -/
theorem Hides.fillMarkers (hides : q.Hides other) : (q.fillMarkers node content).Hides other := by
  obtain ⟨level, member, sub, listed, marker⟩ := hides
  have unmarked : level.marker? ≠ some node := fun own => not_held_of_marker own (.inl listed)
  exact ⟨_, mem_levels_fillMarkers q unmarked member, _, listed_fillMarkers listed,
    (marker?_fillMarkers node content sub).trans marker⟩

theorem MarkersInSlots.of_fillTables (clear : (q.fillTables node content).MarkersInSlots) :
    q.MarkersInSlots :=
  markersInSlots_iff_hides.mpr fun other hides => markersInSlots_iff_hides.mp clear other hides.fillTables

theorem MarkersInSlots.of_fillMarkers (clear : (q.fillMarkers node content).MarkersInSlots) :
    q.MarkersInSlots :=
  markersInSlots_iff_hides.mpr fun other hides => markersInSlots_iff_hides.mp clear other hides.fillMarkers

/-- Where tables are filled, the content is a level of the result. -/
private theorem content_of_tableSites (content : Query) (found : q.tableSites node ≠ 0) :
    ∃ asName, ({ content with asName } : Query) ∈ (q.fillTables node content).levels := by
  obtain ⟨ref, inRefs⟩ := List.exists_mem_of_ne_nil _ (mt List.length_eq_zero_iff.mpr found)
  obtain ⟨level, member, here⟩ := List.mem_flatMap.mp inRefs
  split at here
  · cases here
  · rename_i unmarked
    obtain ⟨direct, own⟩ := List.mem_filter.mp here
    obtain ⟨item, inList, inItem⟩ := List.mem_flatMap.mp direct
    obtain ⟨asName, placed⟩ := FromItem.content_mem_listed content inItem (of_decide_eq_true own)
    refine ⟨asName, mem_levels_trans (mem_levels_fillTables q member) ?_⟩
    rw [fillTables_of_not_marker node content unmarked]
    refine mem_levels.mpr (.inr ⟨_, .inl ?_, self_mem_levels _⟩)
    exact List.mem_flatMap.mpr ⟨_, List.mem_map_of_mem inList, placed⟩

/-- So it is where markers are filled. -/
private theorem content_of_markerSites (content : Query) (found : q.markerSites node ≠ 0) :
    ({ content with asName := none } : Query) ∈ (q.fillMarkers node content).levels := by
  obtain ⟨slot, inSlots⟩ := List.exists_mem_of_ne_nil _ (mt List.length_eq_zero_iff.mpr found)
  obtain ⟨level, member, here⟩ := List.mem_flatMap.mp inSlots
  obtain ⟨held, marker⟩ := List.mem_filter.mp here
  have slotted : slot.2 ∈ level.slotted := List.mem_map_of_mem held
  have unmarked : level.marker? ≠ some node := fun own => not_held_of_marker own (.inr slotted)
  have placed := slotted_fillMarkers node content slotted
  rw [if_pos (of_decide_eq_true marker)] at placed
  refine mem_levels_trans (mem_levels_fillMarkers q unmarked member) ?_
  exact mem_levels.mpr (.inr ⟨_, .inr placed, self_mem_levels _⟩)

/-- What the content hides, the result hides. -/
theorem Hides.of_content {outer : Query} (hides : q.Hides other) {asName : Option String}
    (placed : ({ q with asName } : Query) ∈ outer.levels) : outer.Hides other := by
  obtain ⟨level, member, held⟩ := hides.rename asName
  exact ⟨level, mem_levels_trans placed member, held⟩

theorem Hides.fillsTables (hides : content.Hides other) (found : q.tableSites node ≠ 0) :
    (q.fillTables node content).Hides other := by
  obtain ⟨asName, placed⟩ := content_of_tableSites content found
  exact hides.of_content placed

theorem Hides.fillsMarkers (hides : content.Hides other) (found : q.markerSites node ≠ 0) :
    (q.fillMarkers node content).Hides other :=
  hides.of_content (content_of_markerSites content found)

/-- A marker is read. -/
private theorem read_of_marker {level : Query} (member : level ∈ q.levels)
    (marker : level.marker? = some node) : ∃ ref ∈ q.placeholders, ref.node = node := by
  obtain ⟨ref, asName, own, rfl⟩ := marker?_eq_some.mp marker
  exact ⟨ref, List.mem_flatMap.mpr ⟨_, member, List.mem_cons_self⟩, own⟩

/-- A node that is read once has no place when it is read at a marker at the top or a hidden one. -/
theorem not_hasPlace (once : (q.placeholders.filter fun ref => ref.node = node).length = 1)
    (marked : q.marker? = some node ∨ q.Hides node) : ¬ q.HasPlace node := by
  -- Filling would take the only placeholder away, but leaves the marker.
  have gone {filled : Query} (placed : filled.placeholders.Perm
      ((q.placeholders.filter fun ref => ref.node ≠ node) ++ (default : Query).placeholders))
      (kept : filled.marker? = some node ∨ filled.Hides node) : False := by
    have read : ∃ ref ∈ filled.placeholders, ref.node = node := by
      rcases kept with marker | ⟨level, member, sub, listed, marker⟩
      · exact read_of_marker filled.self_mem_levels marker
      · have below := mem_levels.mpr (.inr ⟨sub, .inl listed, sub.self_mem_levels⟩)
        exact read_of_marker (mem_levels_trans member below) marker
    obtain ⟨ref, member, own⟩ := read
    rcases List.mem_append.mp (placed.mem_iff.mp member) with before | new
    · exact of_decide_eq_true (List.mem_filter.mp before).2 own
    · cases new
  rintro (inTables | inSlots)
  · apply gone (placeholders_fillTables default once inTables).2
    exact marked.imp (marker?_fillTables node default q).trans Hides.fillTables
  · apply gone (placeholders_fillMarkers default once inSlots).2
    exact marked.imp (marker?_fillMarkers node default q).trans Hides.fillMarkers

end Query

end Filled
end ApproxQuery
