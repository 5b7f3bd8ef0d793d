import ApproxQuery.Plan.Basic
import ApproxQuery.Proofs.AscendingMap

/-! What changes to the nodes of a plan do to its look-ups. -/
namespace ApproxQuery

namespace AscendingMap

variable {κ α β : Type} [LT κ] [DecidableLT κ] [DecidableEq κ]

omit [LT κ] [DecidableLT κ] in
theorem mem_entries_of_find? {m : AscendingMap κ α} {key : κ} {value : α}
    (found : m.find? key = some value) : (key, value) ∈ m.entries := by
  rcases m with ⟨entries⟩
  simp only [find?] at found ⊢
  induction entries with
  | nil => cases found
  | cons entry rest ih =>
    rcases entry with ⟨k, old⟩
    rw [findIn] at found
    split at found
    · rename_i same
      cases found
      exact same ▸ List.mem_cons_self
    · exact List.mem_cons_of_mem _ (ih found)

theorem ordered_foldl_insert [IsStrictTotalOrder κ (· < ·)] (key : β → κ) (value : β → α)
    (items : List β) {m : AscendingMap κ α} (ordered : m.Ordered) :
    (items.foldl (fun m item => m.insert (key item) (value item)) m).Ordered := by
  induction items generalizing m with
  | nil => exact ordered
  | cons item rest ih => exact ih (ordered.insert _ _)

theorem find?_foldl_insert_of_not_mem (key : β → κ) (value : β → α) {items : List β} {k : κ}
    (m : AscendingMap κ α) (absent : k ∉ items.map key) :
    (items.foldl (fun m item => m.insert (key item) (value item)) m).find? k = m.find? k := by
  induction items generalizing m with
  | nil => rfl
  | cons item rest ih =>
    rw [List.map_cons, List.mem_cons, not_or] at absent
    rw [List.foldl_cons, ih _ absent.2, find?_insert, if_neg (Ne.symm absent.1)]

/-- Insertions under distinct keys are all found. -/
theorem find?_foldl_insert (key : β → κ) (value : β → α) {items : List β} {item : β}
    (m : AscendingMap κ α) (distinct : (items.map key).Nodup) (member : item ∈ items) :
    (items.foldl (fun m item => m.insert (key item) (value item)) m).find? (key item)
      = some (value item) := by
  induction items generalizing m with
  | nil => cases member
  | cons first rest ih =>
    obtain ⟨fresh, distinctRest⟩ := List.nodup_cons.mp distinct
    rcases List.mem_cons.mp member with same | later
    · rw [List.foldl_cons, same, find?_foldl_insert_of_not_mem key value _ fresh, find?_insert,
        if_pos rfl]
    · exact ih _ distinctRest later

end AscendingMap

theorem Node.mem_addOnce {α : Type} [DecidableEq α] {values : List α} {value x : α} :
    x ∈ addOnce values value ↔ x ∈ values ∨ x = value := by
  unfold addOnce
  split
  · rename_i present
    refine (or_iff_left_of_imp ?_).symm
    rintro rfl
    exact present
  · simp

theorem Node.mem_foldl_addOnce {α : Type} [DecidableEq α] {ids values : List α} {x : α} :
    x ∈ ids.foldl addOnce values ↔ x ∈ values ∨ x ∈ ids := by
  induction ids generalizing values with
  | nil => simp
  | cons id rest ih => rw [List.foldl_cons, ih, mem_addOnce, List.mem_cons, or_assoc]

theorem Node.nodup_foldl_addOnce {α : Type} [DecidableEq α] (ids : List α) {values : List α}
    (distinct : values.Nodup) : (ids.foldl addOnce values).Nodup := by
  induction ids generalizing values with
  | nil => exact distinct
  | cons id rest ih =>
    apply ih
    unfold addOnce
    split
    · exact distinct
    · rename_i fresh
      exact List.nodup_append.mpr ⟨distinct, List.nodup_singleton id, fun other member _ same equal =>
        fresh (List.mem_singleton.mp same ▸ equal ▸ member)⟩

theorem Node.foldl_addOnce_eq {α : Type} [DecidableEq α] {ids values : List α} (distinct : ids.Nodup)
    (fresh : ∀ id ∈ ids, id ∉ values) : ids.foldl addOnce values = values ++ ids := by
  induction ids generalizing values with
  | nil => exact (List.append_nil values).symm
  | cons id rest ih =>
    obtain ⟨own, distinctRest⟩ := List.nodup_cons.mp distinct
    have added : addOnce values id = values ++ [id] := if_neg (fresh id List.mem_cons_self)
    rw [List.foldl_cons, added, ih distinctRest]
    · simp
    · intro other member inside
      rcases List.mem_append.mp inside with old | same
      · exact fresh other (List.mem_cons_of_mem _ member) old
      · exact own (List.mem_singleton.mp same ▸ member)

/-- What is added comes at the end, each value once. -/
theorem Node.exists_foldl_addOnce {α : Type} [DecidableEq α] (ids values : List α) :
    ∃ fresh, ids.foldl addOnce values = values ++ fresh ∧ fresh.Nodup
      ∧ ∀ x ∈ fresh, x ∈ ids ∧ x ∉ values := by
  induction ids generalizing values with
  | nil => exact ⟨[], (List.append_nil values).symm, List.nodup_nil, nofun⟩
  | cons id rest ih =>
    obtain ⟨fresh, grown, distinct, new⟩ := ih (addOnce values id)
    by_cases old : id ∈ values
    · have same : addOnce values id = values := if_pos old
      rw [same] at grown new
      refine ⟨fresh, by rw [List.foldl_cons, same, grown], distinct, fun x member => ?_⟩
      exact (new x member).imp_left (List.mem_cons_of_mem _)
    · have added : addOnce values id = values ++ [id] := if_neg old
      rw [added, List.append_assoc] at grown
      refine ⟨id :: fresh, by rw [List.foldl_cons, added, grown]; rfl, ?_, ?_⟩
      · refine List.nodup_cons.mpr ⟨fun member => (new id member).2 ?_, distinct⟩
        exact mem_addOnce.mpr (.inr rfl)
      · intro x member
        rcases List.mem_cons.mp member with rfl | later
        · exact ⟨List.mem_cons_self, old⟩
        · obtain ⟨among, unseen⟩ := new x later
          exact ⟨List.mem_cons_of_mem _ among, fun before => unseen (mem_addOnce.mpr (.inl before))⟩

namespace Plan

variable (p : Plan)

theorem length_nodeIds : p.nodeIds.length = p.size := List.length_map _

theorem getNode_eq_ok {p : Plan} {id : NodeId} {n : Node} : p.getNode id = .ok n ↔ p.node? id = some n := by
  unfold getNode
  cases p.node? id with
  | none => exact iff_of_false nofun nofun
  | some m =>
    constructor
    · exact fun same => congrArg some (Except.ok.inj same)
    · exact fun same => congrArg Except.ok (Option.some.inj same)

theorem getNode_eq {p : Plan} {id : NodeId} {n : Node} (found : p.node? id = some n) :
    p.getNode id = .ok n := getNode_eq_ok.mpr found

theorem node?_insertNode (n : Node) (id : NodeId) :
    (p.insertNode n).node? id = if n.id = id then some n else p.node? id :=
  AscendingMap.find?_insert p.nodes n.id id n

theorem node?_removeNode (gone id : NodeId) :
    (p.removeNode gone).node? id = if gone = id then none else p.node? id :=
  AscendingMap.find?_erase p.nodes gone id

theorem node?_modifyNode (changed id : NodeId) (change : Node → Node) :
    (p.modifyNode changed change).node? id
      = if changed = id then (p.node? id).map change else p.node? id := by
  refine (AscendingMap.find?_modify p.nodes changed id change).trans ?_
  by_cases same : changed = id
  · rw [if_pos same, if_pos same, same]
    rfl
  · rw [if_neg same, if_neg same]
    rfl

/-- Changes to distinct nodes, one after the other. -/
theorem node?_foldl_modifyNode (change : Node → Node) {ids : List NodeId} (distinct : ids.Nodup)
    (id : NodeId) :
    (ids.foldl (fun p changed => p.modifyNode changed change) p).node? id
      = if id ∈ ids then (p.node? id).map change else p.node? id := by
  induction ids generalizing p with
  | nil => simp
  | cons first rest ih =>
    obtain ⟨fresh, distinctRest⟩ := List.nodup_cons.mp distinct
    rw [List.foldl_cons, ih _ distinctRest, node?_modifyNode]
    by_cases same : first = id
    · subst same
      simp [fresh]
    · simp [same, Ne.symm same]

/-- A plan but for its nodes. -/
structure SameFrame (p p' : Plan) : Prop where
  root : p'.root = p.root
  catalog : p'.catalog = p.catalog
  scratchSchema : p'.scratchSchema = p.scratchSchema
  tag : p'.tag = p.tag
  source : p'.source = p.source

theorem SameFrame.trans {p p' p'' : Plan} (first : SameFrame p p') (second : SameFrame p' p'') :
    SameFrame p p'' :=
  ⟨second.root.trans first.root, second.catalog.trans first.catalog,
    second.scratchSchema.trans first.scratchSchema, second.tag.trans first.tag,
    second.source.trans first.source⟩

section Actions

variable {α β : Type} {p p' : Plan}

theorem bind_ok {act : PlanM α} {next : α → PlanM β} {a : α} (done : act p = (.ok a, p')) :
    (act >>= next) p = next a p' := by
  simp only [bind, ExceptT.bind, ExceptT.mk, StateT.bind, done]
  rfl

theorem bind_error {act : PlanM α} {next : α → PlanM β} {e : PlanError}
    (failed : act p = (.error e, p')) : (act >>= next) p = (.error e, p') := by
  simp only [bind, ExceptT.bind, ExceptT.mk, StateT.bind, failed]
  rfl

theorem lookNode_eq {id : NodeId} {n : Node} (found : p.node? id = some n) :
    lookNode id p = (.ok n, p) := by
  unfold lookNode
  rw [getNode_eq found]

/-- Changing distinct nodes that are there, one after the other. -/
theorem forM_change (change : Node → Node) (named : ∀ n, (change n).id = n.id) {ids : List NodeId}
    (distinct : ids.Nodup) (live : ∀ id ∈ ids, ∃ n, p.node? id = some n ∧ n.id = id) :
    ∃ nodes, (ids.forM fun id => do
        let n ← lookNode id
        modify (·.insertNode (change n)) : PlanM Unit) p = (.ok (), { p with nodes })
      ∧ (p.nodes.Ordered → nodes.Ordered)
      ∧ ∀ id, nodes.find? id = if id ∈ ids then (p.node? id).map change else p.node? id := by
  induction ids generalizing p with
  | nil => exact ⟨p.nodes, rfl, fun ordered => ordered, fun id => by simp; rfl⟩
  | cons first rest ih =>
    obtain ⟨fresh, distinctRest⟩ := List.nodup_cons.mp distinct
    obtain ⟨n, found, own⟩ := live first List.mem_cons_self
    have look (id) : (p.insertNode (change n)).node? id
        = if first = id then some (change n) else p.node? id := by
      rw [node?_insertNode, named, own]
    obtain ⟨nodes, done, ordered, after⟩ := ih (p := p.insertNode (change n)) distinctRest
      fun id member => by
        obtain ⟨m, there, same⟩ := live id (List.mem_cons_of_mem _ member)
        refine ⟨m, ?_, same⟩
        rw [look, if_neg]
        · exact there
        · rintro rfl
          exact fresh member
    refine ⟨nodes, ?_, fun before => ordered (before.insert _ _), fun id => ?_⟩
    · refine (bind_ok (a := ()) ?_).trans done
      exact bind_ok (lookNode_eq found)
    · rw [after id, look]
      by_cases same : first = id
      · subst same
        simp [fresh, found]
      · simp [same, Ne.symm same]

end Actions

end Plan

end ApproxQuery
