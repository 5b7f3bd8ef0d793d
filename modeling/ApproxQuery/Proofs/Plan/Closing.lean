import ApproxQuery.Proofs.Plan.Growth

/-! Closing a node: it takes the tops it links to as its dependents, records where it reads them and
becomes a top itself. -/
namespace ApproxQuery

namespace Link

def ref : Link → PlaceholderRef
  | table ref => ref
  | slot read => read.ref

theorem ref_node (link : Link) : link.ref.node = link.node := by
  cases link <;> rfl

/-- What a consumer records in its tables. -/
def intoTables (m : AscendingMap NodeId (List PlaceholderRef)) :
    Link → AscendingMap NodeId (List PlaceholderRef)
  | table ref => m.append ref.node [ref]
  | slot _ => m

/-- What a consumer records in its filters. -/
def intoFilters (m : AscendingMap NodeId (List SlotRef)) : Link → AscendingMap NodeId (List SlotRef)
  | table _ => m
  | slot read => m.append read.ref.node [read]

theorem map_ref_node (links : List Link) :
    (links.map ref).map PlaceholderRef.node = links.map node := by
  rw [List.map_map]
  exact List.map_congr_left fun link _ => link.ref_node

end Link

/-- The node has the link recorded. -/
def Node.Records (n : Node) : Link → Prop
  | .table ref => ref ∈ (n.tables.find? ref.node).getD []
  | .slot read => read ∈ (n.filters.find? read.ref.node).getD []

namespace Plan

private theorem foldl_addLink {links : List Link} {n : Node}
    (distinct : (n.dependents ++ links.map Link.node).Nodup) :
    links.foldl addLink n = { n with
      dependents := n.dependents ++ links.map Link.node
      tables := links.foldl Link.intoTables n.tables
      filters := links.foldl Link.intoFilters n.filters } := by
  induction links generalizing n with
  | nil => simp
  | cons link rest ih =>
    have fresh : link.node ∉ n.dependents := by
      intro member
      exact (List.nodup_append.mp distinct).2.2 _ member _ List.mem_cons_self rfl
    have added : addLink n link = { n with
        dependents := n.dependents ++ [link.node]
        tables := link.intoTables n.tables
        filters := link.intoFilters n.filters } := by
      cases link <;> simp [addLink, Node.addDependent, Node.addOnce, fresh, Link.intoTables, Link.intoFilters]
    rw [List.foldl_cons, added, ih]
    · simp
    · simpa using distinct

private theorem ordered_intoTables (links : List Link) {m : AscendingMap NodeId (List PlaceholderRef)}
    (ordered : m.Ordered) : (links.foldl Link.intoTables m).Ordered := by
  induction links generalizing m with
  | nil => exact ordered
  | cons link rest ih =>
    cases link with
    | table ref => exact ih (ordered.append _ _)
    | slot read => exact ih ordered

private theorem ordered_intoFilters (links : List Link) {m : AscendingMap NodeId (List SlotRef)}
    (ordered : m.Ordered) : (links.foldl Link.intoFilters m).Ordered := by
  induction links generalizing m with
  | nil => exact ordered
  | cons link rest ih =>
    cases link with
    | table ref => exact ih ordered
    | slot read => exact ih (ordered.append _ _)

private theorem mem_keys_intoTables {links : List Link}
    {m : AscendingMap NodeId (List PlaceholderRef)} (ordered : m.Ordered) {d : NodeId} :
    d ∈ (links.foldl Link.intoTables m).keys
      ↔ d ∈ m.keys ∨ ∃ ref, .table ref ∈ links ∧ ref.node = d := by
  induction links generalizing m with
  | nil => simp
  | cons link rest ih =>
    cases link with
    | table ref =>
      rw [List.foldl_cons, Link.intoTables, ih (ordered.append _ _), ordered.mem_keys_append]
      simp only [List.mem_cons, Link.table.injEq, or_and_right, exists_or, exists_eq_left]
      rw [eq_comm (a := d), or_left_comm, or_assoc]
    | slot read =>
      rw [List.foldl_cons, Link.intoTables, ih ordered]
      simp only [List.mem_cons, reduceCtorEq, false_or]

private theorem mem_keys_intoFilters {links : List Link} {m : AscendingMap NodeId (List SlotRef)}
    (ordered : m.Ordered) {d : NodeId} :
    d ∈ (links.foldl Link.intoFilters m).keys
      ↔ d ∈ m.keys ∨ ∃ read, .slot read ∈ links ∧ read.ref.node = d := by
  induction links generalizing m with
  | nil => simp
  | cons link rest ih =>
    cases link with
    | table ref =>
      rw [List.foldl_cons, Link.intoFilters, ih ordered]
      simp only [List.mem_cons, reduceCtorEq, false_or]
    | slot read =>
      rw [List.foldl_cons, Link.intoFilters, ih (ordered.append _ _), ordered.mem_keys_append]
      simp only [List.mem_cons, Link.slot.injEq, or_and_right, exists_or, exists_eq_left]
      rw [eq_comm (a := d), or_left_comm, or_assoc]

private theorem recorded_into (links : List Link) (tables : AscendingMap NodeId (List PlaceholderRef))
    (filters : AscendingMap NodeId (List SlotRef)) (d : NodeId) :
    (((links.foldl Link.intoTables tables).find? d).getD []
        ++ (((links.foldl Link.intoFilters filters).find? d).getD []).map SlotRef.ref).Perm
      (((tables.find? d).getD [] ++ ((filters.find? d).getD []).map SlotRef.ref)
        ++ (links.map Link.ref).filter fun ref => ref.node = d) := by
  induction links generalizing tables filters with
  | nil => simp
  | cons link rest ih =>
    rw [List.foldl_cons, List.foldl_cons]
    refine (ih _ _).trans ?_
    rw [List.map_cons, List.filter_cons]
    by_cases same : link.ref.node = d
    · cases link with
      | table ref =>
        have here : ref.node = d := same
        simp only [Link.intoTables, Link.intoFilters, AscendingMap.getD_append, Link.ref, here, if_true,
          decide_true, List.append_assoc]
        refine List.Perm.append_left _ ?_
        rw [List.singleton_append]
        exact List.perm_middle.symm
      | slot read =>
        have here : read.ref.node = d := same
        simp only [Link.intoTables, Link.intoFilters, AscendingMap.getD_append, Link.ref, here, if_true,
          decide_true, List.append_assoc, List.map_append, List.map_singleton]
        exact List.Perm.refl _
    · cases link with
      | table ref =>
        have apart : ref.node ≠ d := same
        simp [Link.intoTables, Link.intoFilters, AscendingMap.getD_append, Link.ref, apart]
      | slot read =>
        have apart : read.ref.node ≠ d := same
        simp [Link.intoTables, Link.intoFilters, AscendingMap.getD_append, Link.ref, apart]

private theorem mem_intoTables {links : List Link} {m : AscendingMap NodeId (List PlaceholderRef)}
    {ref : PlaceholderRef} : ref ∈ ((links.foldl Link.intoTables m).find? ref.node).getD []
      ↔ ref ∈ (m.find? ref.node).getD [] ∨ .table ref ∈ links := by
  induction links generalizing m with
  | nil => simp
  | cons link rest ih =>
    rw [List.foldl_cons, ih, List.mem_cons, ← or_assoc]
    refine or_congr_left ?_
    cases link with
    | slot read => simp [Link.intoTables]
    | table other =>
      rw [Link.intoTables, AscendingMap.getD_append, List.mem_append, Link.table.injEq]
      refine or_congr_right ?_
      split
      · exact List.mem_singleton
      · rename_i apart
        refine iff_of_false List.not_mem_nil ?_
        rintro rfl
        exact apart rfl

private theorem mem_intoFilters {links : List Link} {m : AscendingMap NodeId (List SlotRef)}
    {read : SlotRef} : read ∈ ((links.foldl Link.intoFilters m).find? read.ref.node).getD []
      ↔ read ∈ (m.find? read.ref.node).getD [] ∨ .slot read ∈ links := by
  induction links generalizing m with
  | nil => simp
  | cons link rest ih =>
    rw [List.foldl_cons, ih, List.mem_cons, ← or_assoc]
    refine or_congr_left ?_
    cases link with
    | table ref => simp [Link.intoFilters]
    | slot other =>
      rw [Link.intoFilters, AscendingMap.getD_append, List.mem_append, Link.slot.injEq]
      refine or_congr_right ?_
      split
      · exact List.mem_singleton
      · rename_i apart
        refine iff_of_false List.not_mem_nil ?_
        rintro rfl
        exact apart rfl

/-- The node that is inserted when it is closed. -/
def closedNode (start : OpenNode) (q : Query) (links : List Link) (queue : QueueId) : Node :=
  { Node.new start.id start.kind q start.scratch with
    dependents := links.map Link.node
    tables := links.foldl Link.intoTables .empty
    filters := links.foldl Link.intoFilters .empty
    listens := if links = [] then [] else [queue] }

theorem mem_tableKeys_closedNode {start : OpenNode} {q : Query} {links : List Link}
    {queue : QueueId} {d : NodeId} :
    d ∈ (closedNode start q links queue).tables.keys ↔ ∃ ref, .table ref ∈ links ∧ ref.node = d :=
  (mem_keys_intoTables AscendingMap.ordered_empty).trans (or_iff_right List.not_mem_nil)

theorem mem_filterKeys_closedNode {start : OpenNode} {q : Query} {links : List Link}
    {queue : QueueId} {d : NodeId} :
    d ∈ (closedNode start q links queue).filters.keys
      ↔ ∃ read, .slot read ∈ links ∧ read.ref.node = d :=
  (mem_keys_intoFilters AscendingMap.ordered_empty).trans (or_iff_right List.not_mem_nil)

/-- A closed node records its links and no others. -/
theorem records_closedNode {start : OpenNode} {q : Query} {links : List Link} {queue : QueueId}
    {link : Link} : (closedNode start q links queue).Records link ↔ link ∈ links := by
  cases link with
  | table ref => exact mem_intoTables.trans (or_iff_right List.not_mem_nil)
  | slot read => exact mem_intoFilters.trans (or_iff_right List.not_mem_nil)

/-- A node that links to all that its query reads records what it reads. -/
theorem consistent_closedNode {start : OpenNode} {q : Query} {links : List Link} {queue : QueueId}
    (distinct : (links.map Link.node).Nodup) (placed : q.placeholders.Perm (links.map Link.ref))
    (plain : ∀ s, start.kind ≠ .progressive s) : (closedNode start q links queue).Consistent where
  distinct := distinct
  placed := by
    refine (placed.map _).trans ?_
    rw [Link.map_ref_node]
    exact List.Perm.refl _
  recorded := by
    intro d
    refine (recorded_into links .empty .empty d).trans ?_
    exact (placed.filter _).symm
  tables := ordered_intoTables links AscendingMap.ordered_empty
  filters := ordered_intoFilters links AscendingMap.ordered_empty
  tableKeys := by
    intro d member
    rcases (mem_keys_intoTables AscendingMap.ordered_empty).mp member with old | ⟨ref, linked, rfl⟩
    · cases old
    · exact List.mem_map.mpr ⟨_, linked, rfl⟩
  filterKeys := by
    intro d member
    rcases (mem_keys_intoFilters AscendingMap.ordered_empty).mp member with old | ⟨ref, linked, rfl⟩
    · cases old
    · exact List.mem_map.mpr ⟨_, linked, rfl⟩
  deaf := fun none => if_pos (List.map_eq_nil_iff.mp none)
  hears := fun some => ⟨queue, if_neg fun none => some (List.map_eq_nil_iff.mpr none)⟩
  progressive := by
    intro progressive
    cases kind : start.kind with
    | projection => simp [closedNode, Node.new, Node.isProgressive, Node.scramble?, kind] at progressive
    | aggregate => simp [closedNode, Node.new, Node.isProgressive, Node.scramble?, kind] at progressive
    | progressive s => exact absurd kind (plain s)

/-- A dependent with its parent and the queue on which it signals it. -/
private def signalling (parent : NodeId) (queue : QueueId) (n : Node) : Node :=
  (n.addParent parent).addBroadcast queue

/-- Gives each of some nodes a parent that it signals. -/
private def adopt (p : Plan) (parent : NodeId) (queue : QueueId) (ids : List NodeId) : Plan :=
  ids.foldl (fun p id => p.modifyNode id (signalling parent queue)) p

private theorem adopt_eq (p : Plan) (parent : NodeId) (queue : QueueId) (ids : List NodeId) :
    ∃ nodes, p.adopt parent queue ids = { p with nodes } ∧ (p.nodes.Ordered → nodes.Ordered) := by
  unfold adopt
  induction ids generalizing p with
  | nil => exact ⟨p.nodes, rfl, fun ordered => ordered⟩
  | cons id rest ih =>
    obtain ⟨nodes, same, ordered⟩ := ih (p.modifyNode id (signalling parent queue))
    exact ⟨nodes, same, fun before => ordered (before.modify id _)⟩

/-- Closing a node inserts it, and makes it the parent of the nodes it links to. -/
theorem closeNode_eq (start : OpenNode) (q : Query) (links : List Link) (p : Plan)
    (distinct : (links.map Link.node).Nodup) :
    ∃ nodes, (closeNode start q links p).2 = { p with
        nodes, nextQueue := if links = [] then p.nextQueue else p.nextQueue + 1 }
      ∧ (p.nodes.Ordered → nodes.Ordered)
      ∧ ∀ id, nodes.find? id
        = if start.id = id then some (closedNode start q links ⟨p.nextQueue⟩)
          else if id ∈ links.map Link.node then
            (p.node? id).map fun n => (n.addParent start.id).addBroadcast ⟨p.nextQueue⟩
          else p.node? id := by
  by_cases none : links = []
  · subst none
    refine ⟨_, rfl, fun ordered => ordered.insert _ _, fun id => ?_⟩
    exact AscendingMap.find?_insert _ _ _ _
  · let drawn : Plan := { p with nextQueue := p.nextQueue + 1 }
    have closed : links.foldl addLink ((Node.new start.id start.kind q start.scratch).addListening
        ⟨p.nextQueue⟩) = closedNode start q links ⟨p.nextQueue⟩ := by
      rw [foldl_addLink (by simpa [Node.new, Node.addListening] using distinct)]
      simp [closedNode, Node.new, Node.addListening, Node.addOnce, none]
    have result : (closeNode start q links p).2
        = (drawn.adopt start.id ⟨p.nextQueue⟩ (links.map Link.node)).insertNode
            (closedNode start q links ⟨p.nextQueue⟩) := by
      rw [adopt, List.foldl_map, ← closed]
      cases links with
      | nil => exact absurd rfl none
      | cons link rest => rfl
    obtain ⟨nodes, same, ordered⟩ := drawn.adopt_eq start.id ⟨p.nextQueue⟩ (links.map Link.node)
    refine ⟨nodes.insert start.id (closedNode start q links ⟨p.nextQueue⟩), ?_, ?_, fun id => ?_⟩
    · rw [result, same, if_neg none]
      rfl
    · exact fun before => (ordered before).insert _ _
    · have adopted : nodes.find? id = (drawn.adopt start.id ⟨p.nextQueue⟩ (links.map Link.node)).node? id := by
        rw [same]
        rfl
      rw [AscendingMap.find?_insert, adopted, adopt, node?_foldl_modifyNode _ _ distinct]
      rfl

/-- When a node can be closed: its number and table are drawn and unused, and it links to tops that
come after it, once to each placeholder of its query. -/
structure Closing (p : Plan) (tops : List NodeId) (start : OpenNode) (q : Query)
    (links : List Link) : Prop where
  sound : p.Sound (tops ++ links.map Link.node)
  fresh : p.Fresh
  drawn : start.id.index < p.nextNode
  unused : p.node? start.id = none
  named : ∃ k < p.identifiers, start.scratch = p.numberedTable k
  unshared : ∀ {id n}, p.node? id = some n → n.scratch ≠ start.scratch
  plain : ∀ s, start.kind ≠ .progressive s
  distinct : (links.map Link.node).Nodup
  apart : ∀ id ∈ tops, id ∉ links.map Link.node
  below : ∀ link ∈ links, start.id < link.node
  stored : ∀ link ∈ links, ∃ n, p.node? link.node = some n ∧ link.ref.table = n.scratch
    ∧ n.query.isAggregateLevel = true ∧ n.kind ≠ .projection
  placed : q.placeholders.Perm (links.map Link.ref)

namespace Closing

variable {p : Plan} {tops : List NodeId} {start : OpenNode} {q : Query} {links : List Link}

private theorem link_top (closing : Closing p tops start q links) {id : NodeId} {n : Node}
    (member : id ∈ links.map Link.node) (found : p.node? id = some n) :
    n.parents = [] ∧ n.broadcasts = [] := by
  obtain ⟨m, there, none⟩ := closing.sound.top id (List.mem_append_right _ member)
  cases found.symm.trans there
  exact none

private theorem adopted {n : Node} {parent : NodeId} {queue : QueueId} (rootless : n.parents = [])
    (silent : n.broadcasts = []) : (n.addParent parent).addBroadcast queue
      = { n with parents := [parent], broadcasts := [queue] } := by
  simp [Node.addParent, Node.addBroadcast, Node.addOnce, rootless, silent]

/-- The plan after the node was closed. -/
private structure Closed (p : Plan) (start : OpenNode) (q : Query) (links : List Link)
    (p' : Plan) : Prop where
  ordered : p'.nodes.Ordered
  own : p'.node? start.id = some (closedNode start q links ⟨p.nextQueue⟩)
  linked : ∀ {id n}, id ∈ links.map Link.node → p.node? id = some n →
    p'.node? id = some { n with parents := [start.id], broadcasts := [⟨p.nextQueue⟩] }
  other : ∀ {id}, id ≠ start.id → id ∉ links.map Link.node → p'.node? id = p.node? id

private theorem closed (closing : Closing p tops start q links) :
    ∃ nodes, (closeNode start q links p).2 = { p with
        nodes, nextQueue := if links = [] then p.nextQueue else p.nextQueue + 1 }
      ∧ Closed p start q links { p with
        nodes, nextQueue := if links = [] then p.nextQueue else p.nextQueue + 1 } := by
  obtain ⟨nodes, same, ordered, look⟩ := closeNode_eq start q links p closing.distinct
  refine ⟨nodes, same, ordered closing.sound.ordered, ?_, ?_, ?_⟩
  · exact (look start.id).trans (if_pos rfl)
  · intro id n member found
    have different : start.id ≠ id := by
      rintro rfl
      exact nomatch closing.unused.symm.trans found
    obtain ⟨rootless, silent⟩ := closing.link_top member found
    refine (look id).trans ?_
    rw [if_neg different, if_pos member, found, Option.map_some, adopted rootless silent]
  · intro id different apart
    refine (look id).trans ?_
    rw [if_neg different.symm, if_neg apart]

namespace Closed

variable {p' : Plan}

private theorem keeps (closing : Closing p tops start q links) (closed : Closed p start q links p') :
    p.Extends p' := by
  intro id n found
  by_cases member : id ∈ links.map Link.node
  · exact ⟨_, _, closed.linked member found⟩
  · have different : id ≠ start.id := by
      rintro rfl
      exact nomatch closing.unused.symm.trans found
    exact ⟨n.parents, n.broadcasts, (closed.other different member).trans found⟩

/-- A node of the new plan is the closed one, or was there with other ends of edges at most. -/
private theorem origin (closing : Closing p tops start q links) (closed : Closed p start q links p')
    {id : NodeId} {n : Node} (found : p'.node? id = some n) :
    id = start.id ∧ n = closedNode start q links ⟨p.nextQueue⟩
      ∨ id ≠ start.id ∧ ∃ m parents broadcasts, p.node? id = some m
        ∧ n = { m with parents, broadcasts }
        ∧ (id ∈ links.map Link.node → parents = [start.id])
        ∧ (id ∉ links.map Link.node → parents = m.parents ∧ broadcasts = m.broadcasts) := by
  by_cases own : id = start.id
  · subst own
    exact .inl ⟨rfl, Option.some.inj (found.symm.trans closed.own)⟩
  · refine .inr ⟨own, ?_⟩
    by_cases member : id ∈ links.map Link.node
    · obtain ⟨m, there, _⟩ := closing.sound.top id (List.mem_append_right _ member)
      have same := Option.some.inj (found.symm.trans (closed.linked member there))
      exact ⟨m, _, _, there, same, fun _ => rfl, fun apart => absurd member apart⟩
    · have there := (closed.other own member).symm.trans found
      exact ⟨n, n.parents, n.broadcasts, there, rfl, fun linked => absurd linked member,
        fun _ => ⟨rfl, rfl⟩⟩

private theorem reads (closing : Closing p tops start q links) (closed : Closed p start q links p')
    {id d : NodeId} {n : Node} (found : p'.node? id = some n) (member : d ∈ n.dependents) :
    ∃ m, p'.node? d = some m ∧ id < d ∧ m.parents = [id] ∧ m.broadcasts = n.listens := by
  rcases closed.origin closing found with ⟨rfl, rfl⟩ | ⟨_, m, parents, broadcasts, there, rfl, _⟩
  · have linked : d ∈ links.map Link.node := member
    obtain ⟨m, there, _⟩ := closing.sound.top d (List.mem_append_right _ linked)
    obtain ⟨link, among, rfl⟩ := List.mem_map.mp linked
    refine ⟨_, closed.linked linked there, closing.below link among, rfl, ?_⟩
    exact (if_neg (List.ne_nil_of_mem among)).symm
  · obtain ⟨below, there', less, only, heard⟩ := closing.sound.reads there member
    have notTop := closing.sound.not_top there member
    refine ⟨below, ?_, less, only, heard⟩
    rw [closed.other ?_ fun linked => notTop (List.mem_append_right _ linked)]
    · exact there'
    · rintro rfl
      exact nomatch closing.unused.symm.trans there'

private theorem below (closing : Closing p tops start q links) (closed : Closed p start q links p')
    {id : NodeId} {n : Node} (found : p'.node? id = some n) (notTop : id ∉ tops ++ [start.id]) :
    ∃ up m, n.parents = [up] ∧ p'.node? up = some m ∧ id ∈ m.dependents := by
  rw [List.mem_append, List.mem_singleton, not_or] at notTop
  rcases closed.origin closing found with ⟨own, _⟩ | ⟨_, m, parents, _, there, rfl, adopted, kept⟩
  · exact absurd own notTop.2
  · by_cases linked : id ∈ links.map Link.node
    · exact ⟨start.id, _, adopted linked, closed.own, linked⟩
    · have notTop' : id ∉ tops ++ links.map Link.node := by
        rw [List.mem_append, not_or]
        exact ⟨notTop.1, linked⟩
      obtain ⟨up, above, only, there', member⟩ := closing.sound.below there notTop'
      obtain ⟨_, _, found'⟩ := closed.keeps closing _ _ there'
      exact ⟨up, _, (kept linked).1.trans only, found', member⟩

private theorem stored (closing : Closing p tops start q links) (closed : Closed p start q links p')
    {id : NodeId} {n : Node} {ref : PlaceholderRef} (found : p'.node? id = some n)
    (member : ref ∈ n.query.placeholders) :
    ∃ m, p'.node? ref.node = some m ∧ ref.table = m.scratch := by
  have old : ∃ m, p.node? ref.node = some m ∧ ref.table = m.scratch := by
    rcases closed.origin closing found with ⟨_, rfl⟩ | ⟨_, m, _, _, there, rfl, _⟩
    · obtain ⟨link, among, rfl⟩ := List.mem_map.mp (closing.placed.mem_iff.mp member)
      obtain ⟨m, there, same, _⟩ := closing.stored link among
      exact ⟨m, link.ref_node ▸ there, same⟩
    · exact closing.sound.stored there member
  obtain ⟨m, there, same⟩ := old
  obtain ⟨_, _, found'⟩ := closed.keeps closing _ _ there
  exact ⟨_, found', same⟩

private theorem scratch (closing : Closing p tops start q links) (closed : Closed p start q links p')
    {a b : NodeId} {n m : Node} (foundA : p'.node? a = some n) (foundB : p'.node? b = some m)
    (same : n.scratch = m.scratch) : a = b := by
  rcases closed.origin closing foundA with ⟨rfl, rfl⟩ | ⟨_, n', _, _, thereA, rfl, _⟩
  · rcases closed.origin closing foundB with ⟨rfl, _⟩ | ⟨_, m', _, _, thereB, rfl, _⟩
    · rfl
    · exact False.elim (closing.unshared thereB same.symm)
  · rcases closed.origin closing foundB with ⟨rfl, rfl⟩ | ⟨_, m', _, _, thereB, rfl, _⟩
    · exact False.elim (closing.unshared thereA same)
    · exact closing.sound.scratch thereA thereB same

private theorem listens_closedNode {queue : QueueId}
    (member : queue ∈ (closedNode start q links ⟨p.nextQueue⟩).listens) :
    links ≠ [] ∧ queue = ⟨p.nextQueue⟩ := by
  unfold closedNode at member
  by_cases none : links = []
  · simp [none] at member
  · simpa [none] using member

private theorem queues (closing : Closing p tops start q links) (closed : Closed p start q links p')
    {a b : NodeId} {n m : Node} {queue : QueueId} (foundA : p'.node? a = some n)
    (foundB : p'.node? b = some m) (left : queue ∈ n.listens) (right : queue ∈ m.listens) :
    a = b := by
  -- The queue of the closed node is new, so no other node listens on it.
  have new {id : NodeId} {n : Node} (found : p.node? id = some n) : ⟨p.nextQueue⟩ ∉ n.listens :=
    fun member => Nat.lt_irrefl _ (closing.fresh.queues found member)
  rcases closed.origin closing foundA with ⟨rfl, rfl⟩ | ⟨_, n', _, _, thereA, rfl, _⟩
  · rcases closed.origin closing foundB with ⟨rfl, _⟩ | ⟨_, m', _, _, thereB, rfl, _⟩
    · rfl
    · exact absurd ((listens_closedNode left).2 ▸ right) (new thereB)
  · rcases closed.origin closing foundB with ⟨rfl, rfl⟩ | ⟨_, m', _, _, thereB, rfl, _⟩
    · exact absurd ((listens_closedNode right).2 ▸ left) (new thereA)
    · exact closing.sound.queues thereA thereB left right

private theorem sound (closing : Closing p tops start q links) (closed : Closed p start q links p') :
    p'.Sound (tops ++ [start.id]) where
  ordered := closed.ordered
  named := by
    intro id n found
    rcases closed.origin closing found with ⟨rfl, rfl⟩ | ⟨_, m, _, _, there, rfl, _⟩
    · rfl
    · have same := closing.sound.named there
      exact same
  consistent := by
    intro id n found
    rcases closed.origin closing found with ⟨_, rfl⟩ | ⟨_, m, _, _, there, rfl, _⟩
    · exact consistent_closedNode closing.distinct closing.placed closing.plain
    · have before := closing.sound.consistent there
      exact ⟨before.distinct, before.placed, before.recorded, before.tables, before.filters,
        before.tableKeys, before.filterKeys, before.deaf, before.hears, before.progressive⟩
  top := by
    intro id member
    rcases List.mem_append.mp member with old | own
    · obtain ⟨n, found, ends⟩ := closing.sound.top id (List.mem_append_left _ old)
      refine ⟨n, (closed.other ?_ (closing.apart id old)).trans found, ends⟩
      rintro rfl
      exact nomatch closing.unused.symm.trans found
    · exact ⟨_, List.mem_singleton.mp own ▸ closed.own, rfl, rfl⟩
  below := closed.below closing
  reads := closed.reads closing
  stored := closed.stored closing
  scratch := closed.scratch closing
  queues := closed.queues closing
  aggregates := by
    intro id n found notTop
    rw [List.mem_append, List.mem_singleton, not_or] at notTop
    rcases closed.origin closing found with ⟨own, _⟩ | ⟨_, m, _, _, there, rfl, _⟩
    · exact absurd own notTop.2
    · by_cases linked : id ∈ links.map Link.node
      · obtain ⟨link, among, rfl⟩ := List.mem_map.mp linked
        obtain ⟨m', there', _, level⟩ := closing.stored link among
        cases there.symm.trans there'
        exact level
      · have notTop' : id ∉ tops ++ links.map Link.node := by
          rw [List.mem_append, not_or]
          exact ⟨notTop.1, linked⟩
        have level := closing.sound.aggregates there notTop'
        exact level

private theorem fresh (closing : Closing p tops start q links) {nodes : AscendingMap NodeId Node}
    (closed : Closed p start q links { p with
        nodes, nextQueue := if links = [] then p.nextQueue else p.nextQueue + 1 }) :
    Fresh { p with nodes, nextQueue := if links = [] then p.nextQueue else p.nextQueue + 1 } where
  nodes := by
    intro id n found
    rcases closed.origin closing found with ⟨rfl, _⟩ | ⟨_, m, _, _, there, rfl, _⟩
    · exact closing.drawn
    · exact closing.fresh.nodes there
  queues := by
    intro id n queue found member
    rcases closed.origin closing found with ⟨_, rfl⟩ | ⟨_, m, _, _, there, rfl, _⟩
    · obtain ⟨some, rfl⟩ := listens_closedNode member
      simp [some]
    · have below := closing.fresh.queues there member
      refine Nat.lt_of_lt_of_le below ?_
      change p.nextQueue ≤ if links = [] then p.nextQueue else p.nextQueue + 1
      split <;> omega
  tables := by
    intro id n found
    rcases closed.origin closing found with ⟨_, rfl⟩ | ⟨_, m, _, _, there, rfl, _⟩
    · exact closing.named
    · obtain ⟨k, drawn, named⟩ := closing.fresh.tables there
      exact ⟨k, drawn, named⟩

end Closed

/-- What closing a node does to the plan. -/
theorem result (closing : Closing p tops start q links) {p' : Plan}
    (same : (closeNode start q links p).2 = p') :
    p'.Sound (tops ++ [start.id]) ∧ p'.Fresh ∧ p.Extends p'
      ∧ p'.node? start.id = some (closedNode start q links ⟨p.nextQueue⟩)
      ∧ (∀ {id}, id ≠ start.id → id ∉ links.map Link.node → p'.node? id = p.node? id)
      ∧ SameFrame p p' ∧ p'.nextNode = p.nextNode ∧ p.nextQueue ≤ p'.nextQueue
      ∧ p'.identifiers = p.identifiers := by
  obtain ⟨nodes, shape, after⟩ := closing.closed
  cases same.symm.trans shape
  refine ⟨after.sound closing, after.fresh closing, after.keeps closing, after.own, after.other,
    ⟨rfl, rfl, rfl, rfl, rfl⟩, rfl, ?_, rfl⟩
  change p.nextQueue ≤ if links = [] then p.nextQueue else p.nextQueue + 1
  split <;> omega

end Closing

end Plan

end ApproxQuery
