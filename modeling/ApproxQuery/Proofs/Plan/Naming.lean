import ApproxQuery.Proofs.Plan.Search

/-! The names that are handed out while a query is decomposed: the scratch table of each node, and the
aliases that the query does not give itself. Each number that is drawn goes into one of them, so no
two are the same. -/
namespace ApproxQuery.Plan

/-- The alias that is named with the given number. -/
def numberedAlias (p : Plan) (k : Nat) : String := "aqpalias_" ++ (p.tag ++ "_" ++ Decimal.digitText k)

/-- What a name is drawn for: the table of a node, or the alias under which it is read. -/
inductive Draw where
  | table (id : NodeId)
  | asName (id : NodeId)

namespace Draw

def node : Draw → NodeId
  | table id => id
  | asName id => id

/-- The name with the given number. -/
def name (p : Plan) (k : Nat) : Draw → String
  | table _ => (p.numberedTable k).table
  | asName _ => p.numberedAlias k

theorem name_injective {p : Plan} {d d' : Draw} {k k' : Nat} (same : d.name p k = d'.name p k') : k = k' := by
  have apart (k k' : Nat) : (p.numberedTable k).table ≠ p.numberedAlias k' := by
    intro same
    have letters := congrArg String.toList same
    simp [numberedTable, numberedAlias] at letters
  cases d with
  | table id =>
    cases d' with
    | table id' => exact p.numberedTable_injective (congrArg (TableName.mk p.scratchSchema) same)
    | asName id' => exact absurd same (apart k k')
  | asName id =>
    cases d' with
    | table id' => exact absurd same.symm (apart k' k)
    | asName id' =>
      exact Decimal.digitText_injective ((String.append_right_inj _).mp ((String.append_right_inj _).mp same))

theorem name_eq {p p' : Plan} (same : SameFrame p p') (d : Draw) (k : Nat) : d.name p' k = d.name p k := by
  cases d with
  | table id => exact congrArg TableName.table (Grown.numberedTable_eq same k)
  | asName id => rw [name, name, numberedAlias, numberedAlias, same.tag]

end Draw

/-- The node was made since the given number was the next. -/
def MadeSince (p : Plan) (first : Nat) (id : NodeId) : Prop := first ≤ id.index ∧ id.index < p.nextNode

/-- What was made once a node had its number is another one. -/
theorem MadeSince.ne_opened {p p' : Plan} {id : NodeId} (made : p'.MadeSince p.afterOpening.nextNode id) :
    id ≠ ⟨p.nextNode⟩ := by
  rintro rfl
  exact Nat.not_succ_le_self _ made.1

/-- The link is still open, or a node that was made since has it recorded. -/
def LinkedSince (p : Plan) (first : Nat) (links : List Link) (link : Link) : Prop :=
  link ∈ links ∨ ∃ id n, p.MadeSince first id ∧ p.node? id = some n ∧ n.Records link

/-- The alias of the link has to be drawn: always for a slot, and for a derived table that has none. Nodes
are made for the cuts in order, the first with the given number. -/
def DrawsAlias (first : Nat) (cuts : List Query) : Link → Prop
  | .table ref => ∃ cut, cuts[ref.node.index - first]? = some cut ∧ cut.asName = none
  | .slot _ => True

/-- The names that were handed out since, with what they were drawn for. -/
inductive HandedOut (p : Plan) (first : Nat) (links : List Link) (cuts : List Query) :
    Draw → String → Prop
  | table {id : NodeId} {n : Node} (made : p.MadeSince first id) (found : p.node? id = some n) :
      HandedOut p first links cuts (.table id) n.scratch.table
  | asName {link : Link} (linked : p.LinkedSince first links link)
      (drawn : DrawsAlias first cuts link) :
      HandedOut p first links cuts (.asName link.node) link.ref.asName

/-- What a search makes of a plan: a node for each cut, and names by the numbers in between, each for a
draw of its own. -/
structure Making (p p' : Plan) (links : List Link) (cuts : List Query) (draws : List Draw) : Prop
    extends SameFrame p p' where
  nextNode : p'.nextNode = p.nextNode + cuts.length
  identifiers : p'.identifiers = p.identifiers + draws.length
  old : ∀ {id}, ¬ p'.MadeSince p.nextNode id → p'.node? id = p.node? id
  live : ∀ {id}, p'.MadeSince p.nextNode id → ∃ n, p'.node? id = some n
  linked : ∀ {link}, p'.LinkedSince p.nextNode links link → p'.MadeSince p.nextNode link.node
  apart : (links.map Link.node).Nodup
  distinct : draws.Nodup
  handed : ∀ {d s}, p'.HandedOut p.nextNode links cuts d s
    ↔ ∃ k, draws[k]? = some d ∧ s = d.name p (p.identifiers + k)

variable {p p' p'' : Plan} {links more : List Link} {cuts others : List Query}
  {draws later : List Draw} {link : Link} {d : Draw} {s : String}

namespace Making

/-- What has been drawn for has been made. -/
theorem drawn_made (making : Making p p' links cuts draws) (member : d ∈ draws) :
    p'.MadeSince p.nextNode d.node := by
  obtain ⟨k, here⟩ := List.mem_iff_getElem?.mp member
  have handed := making.handed.mpr ⟨k, here, rfl⟩
  generalize d.name p (p.identifiers + k) = s at handed
  cases handed with
  | table made _ => exact made
  | asName linked _ => exact making.linked linked

/-- A part without nodes. -/
theorem none (p : Plan) : Making p p [] [] [] := by
  have unmade {id} : ¬ p.MadeSince p.nextNode id := fun made => Nat.not_lt.mpr made.1 made.2
  have unlinked {link} (linked : p.LinkedSince p.nextNode [] link) : False := by
    rcases linked with opened | ⟨_, _, made, _⟩
    · cases opened
    · exact unmade made
  refine ⟨⟨rfl, rfl, rfl, rfl, rfl⟩, rfl, rfl, fun _ => rfl, fun made => absurd made unmade,
    fun linked => (unlinked linked).elim, List.nodup_nil, List.nodup_nil, ?_⟩
  intro d s
  constructor
  · rintro (⟨made, _⟩ | ⟨linked, _⟩)
    · exact absurd made unmade
    · exact (unlinked linked).elim
  · rintro ⟨_, ⟨⟩, _⟩

section Append

private theorem made_append (first : Making p p' links cuts draws) (second : Making p' p'' more others later)
    {id : NodeId} : p''.MadeSince p.nextNode id
      ↔ p'.MadeSince p.nextNode id ∨ p''.MadeSince p'.nextNode id := by
  have before := first.nextNode
  have after := second.nextNode
  unfold MadeSince
  omega

private theorem look_append (second : Making p' p'' more others later) {id : NodeId}
    (made : p'.MadeSince p.nextNode id) : p''.node? id = p'.node? id :=
  second.old fun again => Nat.not_lt.mpr again.1 made.2

private theorem linked_append (first : Making p p' links cuts draws)
    (second : Making p' p'' more others later) : p''.LinkedSince p.nextNode (links ++ more) link
      ↔ p'.LinkedSince p.nextNode links link ∨ p''.LinkedSince p'.nextNode more link := by
  constructor
  · rintro (opened | ⟨id, n, made, found, recorded⟩)
    · exact (List.mem_append.mp opened).imp .inl .inl
    · rcases (first.made_append second).mp made with early | late
      · exact .inl (.inr ⟨id, n, early, second.look_append early ▸ found, recorded⟩)
      · exact .inr (.inr ⟨id, n, late, found, recorded⟩)
  · rintro ((opened | ⟨id, n, made, found, recorded⟩) | (opened | ⟨id, n, made, found, recorded⟩))
    · exact .inl (List.mem_append_left _ opened)
    · exact .inr ⟨id, n, (first.made_append second).mpr (.inl made),
        (second.look_append made).trans found, recorded⟩
    · exact .inl (List.mem_append_right _ opened)
    · exact .inr ⟨id, n, (first.made_append second).mpr (.inr made), found, recorded⟩

private theorem drawsAlias_left (first : Making p p' links cuts draws)
    (made : p'.MadeSince p.nextNode link.node) :
    DrawsAlias p.nextNode (cuts ++ others) link ↔ DrawsAlias p.nextNode cuts link := by
  cases link with
  | slot read => exact Iff.rfl
  | table ref =>
    have within : ref.node.index - p.nextNode < cuts.length := by
      have range : p.nextNode ≤ ref.node.index ∧ ref.node.index < p'.nextNode := made
      have count := first.nextNode
      omega
    rw [DrawsAlias, DrawsAlias, List.getElem?_append_left within]

private theorem drawsAlias_right (first : Making p p' links cuts draws)
    (made : p''.MadeSince p'.nextNode link.node) :
    DrawsAlias p.nextNode (cuts ++ others) link ↔ DrawsAlias p'.nextNode others link := by
  cases link with
  | slot read => exact Iff.rfl
  | table ref =>
    have count := first.nextNode
    have range : p'.nextNode ≤ ref.node.index := made.1
    have beyond : cuts.length ≤ ref.node.index - p.nextNode := by omega
    have index : ref.node.index - p.nextNode - cuts.length = ref.node.index - p'.nextNode := by omega
    rw [DrawsAlias, DrawsAlias, List.getElem?_append_right beyond, index]

private theorem handed_append (first : Making p p' links cuts draws)
    (second : Making p' p'' more others later) :
    p''.HandedOut p.nextNode (links ++ more) (cuts ++ others) d s
      ↔ p'.HandedOut p.nextNode links cuts d s ∨ p''.HandedOut p'.nextNode more others d s := by
  constructor
  · rintro (⟨made, found⟩ | ⟨linked, drawn⟩)
    · rcases (first.made_append second).mp made with early | late
      · exact .inl (.table early (second.look_append early ▸ found))
      · exact .inr (.table late found)
    · rcases (first.linked_append second).mp linked with early | late
      · exact .inl (.asName early ((first.drawsAlias_left (first.linked early)).mp drawn))
      · exact .inr (.asName late ((first.drawsAlias_right (second.linked late)).mp drawn))
  · rintro ((⟨made, found⟩ | ⟨linked, drawn⟩) | (⟨made, found⟩ | ⟨linked, drawn⟩))
    · exact .table ((first.made_append second).mpr (.inl made)) ((second.look_append made).trans found)
    · exact .asName ((first.linked_append second).mpr (.inl linked))
        ((first.drawsAlias_left (first.linked linked)).mpr drawn)
    · exact .table ((first.made_append second).mpr (.inr made)) found
    · exact .asName ((first.linked_append second).mpr (.inr linked))
        ((first.drawsAlias_right (second.linked linked)).mpr drawn)

private theorem exists_getElem?_cons {α : Type} {first : α} {rest : List α} {a : α} {P : Nat → Prop} :
    (∃ k, (first :: rest)[k]? = some a ∧ P k)
      ↔ (first = a ∧ P 0) ∨ ∃ k, rest[k]? = some a ∧ P (k + 1) := by
  rw [← Nat.or_exists_add_one]
  simp only [List.getElem?_cons_zero, List.getElem?_cons_succ, Option.some.injEq]

private theorem exists_getElem?_append {α : Type} {left right : List α} {a : α} {P : Nat → Prop} :
    (∃ k, (left ++ right)[k]? = some a ∧ P k)
      ↔ (∃ k, left[k]? = some a ∧ P k) ∨ ∃ k, right[k]? = some a ∧ P (left.length + k) := by
  constructor
  · rintro ⟨k, found, holds⟩
    by_cases early : k < left.length
    · exact .inl ⟨k, List.getElem?_append_left early ▸ found, holds⟩
    · have late := Nat.le_of_not_lt early
      refine .inr ⟨k - left.length, List.getElem?_append_right late ▸ found, ?_⟩
      rwa [Nat.add_sub_of_le late]
  · rintro (⟨k, found, holds⟩ | ⟨k, found, holds⟩)
    · obtain ⟨early, _⟩ := List.getElem?_eq_some_iff.mp found
      exact ⟨k, (List.getElem?_append_left early).trans found, holds⟩
    · refine ⟨left.length + k, ?_, holds⟩
      rw [List.getElem?_append_right (Nat.le_add_right _ _), Nat.add_sub_cancel_left]
      exact found

/-- Two parts, one after the other. -/
theorem append (first : Making p p' links cuts draws) (second : Making p' p'' more others later) :
    Making p p'' (links ++ more) (cuts ++ others) (draws ++ later) := by
  have clash {id} (early : p'.MadeSince p.nextNode id) (late : p''.MadeSince p'.nextNode id) : False :=
    Nat.not_lt.mpr late.1 early.2
  constructor
  case toSameFrame => exact first.toSameFrame.trans second.toSameFrame
  case nextNode => rw [second.nextNode, first.nextNode, List.length_append, Nat.add_assoc]
  case identifiers => rw [second.identifiers, first.identifiers, List.length_append, Nat.add_assoc]
  case old =>
    intro id unmade
    obtain ⟨notEarly, notLate⟩ := not_or.mp (mt (first.made_append second).mpr unmade)
    exact (second.old notLate).trans (first.old notEarly)
  case live =>
    intro id made
    rcases (first.made_append second).mp made with early | late
    · rw [second.look_append early]
      exact first.live early
    · exact second.live late
  case linked =>
    intro link linked
    refine (first.made_append second).mpr ?_
    exact ((first.linked_append second).mp linked).imp first.linked second.linked
  case apart =>
    rw [List.map_append]
    refine List.nodup_append.mpr ⟨first.apart, second.apart, ?_⟩
    rintro id early _ late rfl
    obtain ⟨link, member, rfl⟩ := List.mem_map.mp early
    obtain ⟨link', member', same⟩ := List.mem_map.mp late
    exact clash (first.linked (.inl member)) (same ▸ second.linked (.inl member'))
  case distinct =>
    refine List.nodup_append.mpr ⟨first.distinct, second.distinct, ?_⟩
    rintro d early _ late rfl
    exact clash (first.drawn_made early) (second.drawn_made late)
  case handed =>
    intro d s
    rw [first.handed_append second, exists_getElem?_append, first.handed, second.handed]
    refine or_congr_right (exists_congr fun k => and_congr_right fun _ => ?_)
    rw [d.name_eq first.toSameFrame, first.identifiers, Nat.add_assoc]

end Append

end Making

section Closing

variable {q level : Query}

/-- What has happened when it is closed: the node is there, and the others have what they had recorded. -/
private structure Closes (p p' : Plan) (links : List Link) (after : Plan) : Prop extends SameFrame p' after where
  nextNode : after.nextNode = p'.nextNode
  identifiers : after.identifiers = p'.identifiers
  own : ∃ n, after.node? ⟨p.nextNode⟩ = some n ∧ n.scratch = p.numberedTable p.identifiers
    ∧ ∀ link, n.Records link ↔ link ∈ links
  others : ∀ {id}, id ≠ ⟨p.nextNode⟩ → ∃ change : Node → Node, after.node? id = (p'.node? id).map change
    ∧ ∀ n, (change n).scratch = n.scratch ∧ ∀ link, (change n).Records link ↔ n.Records link
  unlinked : ∀ {id}, id ≠ ⟨p.nextNode⟩ → id ∉ links.map Link.node → after.node? id = p'.node? id

private theorem closes_of_apart (apart : (links.map Link.node).Nodup) :
    Closes p p' links (closeNode (p.opened q) level links p').2 := by
  obtain ⟨nodes, shape, _, look⟩ := closeNode_eq (p.opened q) level links p' apart
  rw [shape]
  constructor
  case toSameFrame => exact ⟨rfl, rfl, rfl, rfl, rfl⟩
  case nextNode => rfl
  case identifiers => rfl
  case own => exact ⟨_, (look _).trans (if_pos rfl), rfl, fun _ => records_closedNode⟩
  case others =>
    intro id other
    have here := (look id).trans (if_neg (Ne.symm other))
    by_cases linked : id ∈ links.map Link.node
    · exact ⟨_, here.trans (if_pos linked), fun n => ⟨rfl, fun link => by cases link <;> exact Iff.rfl⟩⟩
    · refine ⟨fun n => n, (here.trans (if_neg linked)).trans ?_, fun n => ⟨rfl, fun _ => Iff.rfl⟩⟩
      exact Option.map_id'.symm
  case unlinked => exact fun other unlinked => (look _).trans ((if_neg (Ne.symm other)).trans (if_neg unlinked))

namespace Closes

private theorem made (closes : Closes p p' links p'') (making : Making p.afterOpening p' links cuts draws)
    {id : NodeId} : p''.MadeSince p.nextNode id
      ↔ id = ⟨p.nextNode⟩ ∨ p'.MadeSince p.afterOpening.nextNode id := by
  have count := making.nextNode
  have opened : p.afterOpening.nextNode = p.nextNode + 1 := rfl
  rcases id with ⟨index⟩
  simp only [MadeSince, closes.nextNode, NodeId.mk.injEq]
  omega

/-- No link comes or goes. -/
private theorem linked (closes : Closes p p' links p'')
    (making : Making p.afterOpening p' links cuts draws) :
    p''.LinkedSince p.nextNode [] link ↔ p'.LinkedSince p.afterOpening.nextNode links link := by
  obtain ⟨own, here, _, records⟩ := closes.own
  constructor
  · rintro (opened | ⟨id, n, made, found, recorded⟩)
    · cases opened
    · rcases (closes.made making).mp made with rfl | before
      · cases here.symm.trans found
        exact .inl ((records link).mp recorded)
      · obtain ⟨change, look, same⟩ := closes.others before.ne_opened
        obtain ⟨m, there, rfl⟩ := Option.map_eq_some_iff.mp (look.symm.trans found)
        exact .inr ⟨id, m, before, there, ((same m).2 link).mp recorded⟩
  · rintro (opened | ⟨id, m, made, there, recorded⟩)
    · exact .inr ⟨_, own, (closes.made making).mpr (.inl rfl), here, (records link).mpr opened⟩
    · obtain ⟨change, look, same⟩ := closes.others made.ne_opened
      refine .inr ⟨id, change m, (closes.made making).mpr (.inr made), ?_, ?_⟩
      · rw [look, there, Option.map_some]
      · exact ((same m).2 link).mpr recorded

private theorem drawsAlias (making : Making p.afterOpening p' links cuts draws)
    (linked : p'.LinkedSince p.afterOpening.nextNode links link) :
    DrawsAlias p.nextNode (q :: cuts) link ↔ DrawsAlias p.afterOpening.nextNode cuts link := by
  cases link with
  | slot read => exact Iff.rfl
  | table ref =>
    have above : p.nextNode + 1 ≤ ref.node.index := (making.linked linked).1
    have index : ref.node.index - p.nextNode = ref.node.index - (p.nextNode + 1) + 1 := by omega
    rw [DrawsAlias, DrawsAlias, index, List.getElem?_cons_succ]
    exact Iff.rfl

/-- One name more has been handed out, the node's own table. -/
private theorem handed (closes : Closes p p' links p'')
    (making : Making p.afterOpening p' links cuts draws) :
    p''.HandedOut p.nextNode [] (q :: cuts) d s
      ↔ (d = .table ⟨p.nextNode⟩ ∧ s = (p.numberedTable p.identifiers).table)
        ∨ p'.HandedOut p.afterOpening.nextNode links cuts d s := by
  obtain ⟨own, here, scratch, _⟩ := closes.own
  constructor
  · rintro (⟨made, found⟩ | ⟨linked, drawn⟩)
    · rcases (closes.made making).mp made with rfl | before
      · cases here.symm.trans found
        exact .inl ⟨rfl, congrArg TableName.table scratch⟩
      · obtain ⟨change, look, same⟩ := closes.others before.ne_opened
        obtain ⟨m, there, rfl⟩ := Option.map_eq_some_iff.mp (look.symm.trans found)
        rw [(same m).1]
        exact .inr (.table before there)
    · have before := (closes.linked making).mp linked
      exact .inr (.asName before ((drawsAlias making before).mp drawn))
  · rintro (⟨rfl, rfl⟩ | ⟨made, found⟩ | ⟨linked, drawn⟩)
    · rw [← scratch]
      exact .table ((closes.made making).mpr (.inl rfl)) here
    · obtain ⟨change, look, same⟩ := closes.others made.ne_opened
      rw [← (same _).1]
      refine .table ((closes.made making).mpr (.inr made)) ?_
      rw [look, found, Option.map_some]
    · exact .asName ((closes.linked making).mpr linked) ((drawsAlias making linked).mpr drawn)

end Closes

/-- A node whose level was searched is closed: its table was drawn first. -/
theorem Making.close (making : Making p.afterOpening p' links cuts draws) (q level : Query) :
    Making p (closeNode (p.opened q) level links p').2 [] (q :: cuts) (.table ⟨p.nextNode⟩ :: draws) := by
  have closes : Closes p p' links (closeNode (p.opened q) level links p').2 :=
    closes_of_apart making.apart
  have opened : p.afterOpening.nextNode = p.nextNode + 1 := rfl
  have frame : SameFrame p p' := ⟨making.root, making.catalog, making.scratchSchema, making.tag, making.source⟩
  constructor
  case toSameFrame => exact frame.trans closes.toSameFrame
  case nextNode => rw [closes.nextNode, making.nextNode, opened, List.length_cons, Nat.add_assoc, Nat.add_comm 1]
  case identifiers =>
    have drawn : p.afterOpening.identifiers = p.identifiers + 1 := rfl
    rw [closes.identifiers, making.identifiers, drawn, List.length_cons, Nat.add_assoc, Nat.add_comm 1]
  case old =>
    intro id unmade
    obtain ⟨other, before⟩ := not_or.mp (mt (closes.made making).mpr unmade)
    have unlinked : id ∉ links.map Link.node := by
      rintro linked
      obtain ⟨link, member, rfl⟩ := List.mem_map.mp linked
      exact before (making.linked (.inl member))
    exact (closes.unlinked other unlinked).trans (making.old before)
  case live =>
    intro id made
    rcases (closes.made making).mp made with rfl | before
    · obtain ⟨n, here, _⟩ := closes.own
      exact ⟨n, here⟩
    · obtain ⟨change, look, _⟩ := closes.others before.ne_opened
      obtain ⟨m, there⟩ := making.live before
      exact ⟨change m, look.trans (congrArg (Option.map change) there)⟩
  case linked =>
    intro link linked
    exact (closes.made making).mpr (.inr (making.linked ((closes.linked making).mp linked)))
  case apart => exact List.nodup_nil
  case distinct =>
    exact List.nodup_cons.mpr ⟨fun member => (making.drawn_made member).ne_opened rfl, making.distinct⟩
  case handed =>
    intro d s
    rw [closes.handed making, making.handed, exists_getElem?_cons]
    refine or_congr ⟨?_, ?_⟩ (exists_congr fun k => and_congr_right fun _ => ?_)
    · rintro ⟨rfl, rfl⟩
      exact ⟨rfl, rfl⟩
    · rintro ⟨rfl, rfl⟩
      exact ⟨rfl, rfl⟩
    · have number : p.afterOpening.identifiers + k = p.identifiers + (k + 1) := Nat.succ_add_eq_add_succ _ _
      have same : SameFrame p p.afterOpening := ⟨rfl, rfl, rfl, rfl, rfl⟩
      rw [d.name_eq same, number]

end Closing

section Reading

private theorem HandedOut.of_nodes {first : Nat} (nodes : p'.nodes = p.nodes) (next : p'.nextNode = p.nextNode)
    (handed : p.HandedOut first links cuts d s) : p'.HandedOut first links cuts d s := by
  have look (id) : p'.node? id = p.node? id := congrArg (AscendingMap.find? · id) nodes
  have made {id} : p.MadeSince first id ↔ p'.MadeSince first id := by rw [MadeSince, MadeSince, next]
  cases handed with
  | table own found => exact .table (made.mp own) ((look _).trans found)
  | asName linked drawn =>
    refine .asName (linked.imp_right ?_) drawn
    rintro ⟨id, n, own, found, recorded⟩
    exact ⟨id, n, made.mp own, (look id).trans found, recorded⟩

/-- Of a plan only its nodes matter, and what their next number is. -/
theorem handedOut_congr {first : Nat} (nodes : p'.nodes = p.nodes) (next : p'.nextNode = p.nextNode) :
    p'.HandedOut first links cuts d s ↔ p.HandedOut first links cuts d s :=
  ⟨.of_nodes nodes.symm next.symm, .of_nodes nodes next⟩

/-- A link that is still open comes to the others. -/
private theorem linkedSince_cons {first : Nat} {other : Link} :
    p.LinkedSince first [link] other ↔ other = link ∨ p.LinkedSince first [] other := by
  unfold LinkedSince
  rw [List.mem_singleton, or_iff_right List.not_mem_nil]

/-- With its alias, if that is drawn. -/
private theorem handedOut_cons {first : Nat} : p.HandedOut first [link] cuts d s
    ↔ p.HandedOut first [] cuts d s ∨ DrawsAlias first cuts link ∧ d = .asName link.node ∧ s = link.ref.asName := by
  constructor
  · rintro (⟨made, found⟩ | ⟨linked, drawn⟩)
    · exact .inl (.table made found)
    · rcases linkedSince_cons.mp linked with rfl | before
      · exact .inr ⟨drawn, rfl, rfl⟩
      · exact .inl (.asName before drawn)
  · rintro ((⟨made, found⟩ | ⟨linked, drawn⟩) | ⟨drawn, rfl, rfl⟩)
    · exact .table made found
    · exact .asName (linkedSince_cons.mpr (.inr linked)) drawn
    · exact .asName (linkedSince_cons.mpr (.inl rfl)) drawn

namespace Making

private theorem linked_cons (making : Making p p' [] cuts draws)
    (made : p'.MadeSince p.nextNode link.node) {other : Link}
    (linked : p'.LinkedSince p.nextNode [link] other) : p'.MadeSince p.nextNode other.node := by
  rcases linkedSince_cons.mp linked with rfl | before
  · exact made
  · exact making.linked before

/-- A node is read under an alias that the query gives. -/
theorem read_given (making : Making p p' [] cuts draws) (made : p'.MadeSince p.nextNode link.node)
    (given : ¬ DrawsAlias p.nextNode cuts link) : Making p p' [link] cuts draws where
  __ := making
  linked := making.linked_cons made
  apart := List.nodup_singleton _
  handed := by
    intro d s
    rw [handedOut_cons, making.handed]
    exact or_iff_left fun drawn => given drawn.1

/-- A node that nothing reads yet is read under an alias that is drawn then. -/
theorem read_after (making : Making p p' [] cuts draws) (made : p'.MadeSince p.nextNode link.node)
    (unread : Draw.asName link.node ∉ draws) (drawn : DrawsAlias p.nextNode cuts link)
    (named : link.ref.asName = p'.numberedAlias p'.identifiers) :
    Making p { p' with identifiers := p'.identifiers + 1 } [link] cuts (draws ++ [.asName link.node]) where
  __ := making
  identifiers := by
    rw [making.identifiers, List.length_append]
    rfl
  linked := making.linked_cons made
  apart := List.nodup_singleton _
  distinct := by
    refine List.nodup_append.mpr ⟨making.distinct, List.nodup_singleton _, ?_⟩
    rintro d before _ own rfl
    exact unread (List.mem_singleton.mp own ▸ before)
  handed := by
    have last : link.ref.asName
        = (Draw.asName link.node).name p (p.identifiers + (draws.length + 0)) := by
      rw [named, Nat.add_zero, ← making.identifiers]
      exact Draw.name_eq making.toSameFrame (.asName link.node) _
    intro d s
    have same : Plan.HandedOut { p' with identifiers := p'.identifiers + 1 } p.nextNode [link] cuts d s
        ↔ p'.HandedOut p.nextNode [link] cuts d s := handedOut_congr rfl rfl
    rw [same, handedOut_cons, making.handed, exists_getElem?_append, exists_getElem?_cons]
    refine or_congr_right ⟨?_, ?_⟩
    · rintro ⟨_, rfl, rfl⟩
      exact .inl ⟨rfl, last⟩
    · rintro (⟨rfl, rfl⟩ | ⟨k, none, _⟩)
      · exact ⟨drawn, rfl, last.symm⟩
      · cases none

/-- Or under one that was drawn before the node was made. -/
theorem read_before (making : Making { p with identifiers := p.identifiers + 1 } p' [] cuts draws)
    (made : p'.MadeSince p.nextNode link.node) (unread : Draw.asName link.node ∉ draws)
    (drawn : DrawsAlias p.nextNode cuts link) (named : link.ref.asName = p.numberedAlias p.identifiers) :
    Making p p' [link] cuts (.asName link.node :: draws) where
  __ := making
  identifiers := by
    have drawn : p'.identifiers = p.identifiers + 1 + draws.length := making.identifiers
    rw [drawn, List.length_cons, Nat.add_assoc, Nat.add_comm 1]
  linked := making.linked_cons made
  apart := List.nodup_singleton _
  distinct := List.nodup_cons.mpr ⟨unread, making.distinct⟩
  handed := by
    intro d s
    have before : p'.HandedOut p.nextNode [] cuts d s ↔ _ := making.handed
    rw [handedOut_cons, before, exists_getElem?_cons, or_comm]
    refine or_congr ⟨?_, ?_⟩ (exists_congr fun k => and_congr_right fun _ => ?_)
    · rintro ⟨_, rfl, rfl⟩
      exact ⟨rfl, named⟩
    · rintro ⟨rfl, rfl⟩
      exact ⟨drawn, rfl, named.symm⟩
    · have same : SameFrame p { p with identifiers := p.identifiers + 1 } := ⟨rfl, rfl, rfl, rfl, rfl⟩
      rw [d.name_eq same, Nat.succ_add_eq_add_succ]

end Making

end Reading

end ApproxQuery.Plan
