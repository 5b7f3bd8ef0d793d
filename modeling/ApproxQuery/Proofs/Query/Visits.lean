import ApproxQuery.Proofs.Query.InPlace

/-! What a walk comes to that changes the levels of a query on its way. Whatever the visits do, these are the levels
that a walk that only reads finds in the query that is left, in the same order. As long as each visit leaves the
sub-queries of its level alone, they are those of the query as it was, too. -/
namespace ApproxQuery

section Held

/-- The next of the queries at hand. -/
def Query.next : StateM (List Query) Query
  | [] => (default, [])
  | sub :: rest => (sub, rest)

/-- A level that holds other queries, in the order of those that it held. -/
def Query.holding (q : Query) (subs : List Query) : Query := (q.changeHeld (fun _ => next) subs).1

private theorem mapM_next {α : Type} {parts : List α} {subs : List Query} (length : subs.length = parts.length) :
    parts.mapM (fun _ => Query.next) subs = (subs, []) := by
  induction parts generalizing subs with
  | nil => rw [List.length_eq_zero_iff.mp length, List.mapM_nil]; rfl
  | cons part rest ih =>
    obtain ⟨sub, later, rfl⟩ := List.exists_cons_of_length_eq_add_one length
    have further := ih (Nat.succ.inj length)
    rw [List.mapM_cons]
    change (fun reached : List Query × List Query => (sub :: reached.1, reached.2))
      (rest.mapM (fun _ => Query.next) later) = _
    rw [further]

theorem Query.holding_spec (q : Query) :
    (∀ subs, subs.length = q.held.length → (q.holding subs).held = subs)
      ∧ ∀ (m : Type → Type) [Monad m] [LawfulMonad m] (change : Query → m Query),
        q.changeHeld change = q.holding <$> q.held.mapM change := by
  obtain ⟨fill, filled, runs⟩ := q.rewrites_changeHeld
  have same {subs : List Query} (length : subs.length = q.held.length) : q.holding subs = fill subs := by
    have ran := congrFun (runs (StateM (List Query)) fun _ => next) subs
    refine (congrArg Prod.fst ran).trans ?_
    change fill (q.held.mapM (fun _ => next) subs).1 = fill subs
    rw [mapM_next length]
  constructor
  · intro subs length
    rw [same length, ← filled subs length, List.map_snd_zip]
    exact Nat.le_of_eq length
  · intro m _ _ change
    refine (runs m change).trans ?_
    rw [map_eq_pure_bind, map_eq_pure_bind]
    apply bind_congr_of_length
    intro subs length
    rw [same length]

/-- Whatever a level holds may as well be changed while it is still held by another. -/
theorem Query.changeHeld_holding {q level : Query} (same : level.held = q.held) {m : Type → Type} [Monad m]
    [LawfulMonad m] (change : Query → m Query) :
    level.changeHeld change = (fun nested => level.holding nested.held) <$> q.changeHeld change := by
  rw [level.holding_spec.2, q.holding_spec.2, same, Functor.map_map, map_eq_pure_bind, map_eq_pure_bind]
  apply bind_congr_of_length
  intro subs length
  rw [q.holding_spec.1 subs length]

end Held

section Levels

variable {m : Type → Type} [Monad m] [LawfulMonad m] (visit : Query → m (Query → Query))

theorem FromItem.changeLevels_eq (item : FromItem) :
    item.changeLevels visit = item.changeHeld (Query.changeLevels visit) := by
  induction item using treeInduction with
  | join left right kind on ihLeft ihRight =>
    rw [changeLevels, changeHeld, ihLeft, ihRight]
    cases on with
    | none => rfl
    | some e => simp only [Expr.changeLevels_eq, Option.mapM_some]
  | _ => rfl

/-- The visit of a level comes first, then the queries that the level holds, and last the change of the level. -/
theorem Query.changeLevels_eq (q : Query) : q.changeLevels visit = do
    let change ← visit q
    let nested ← q.changeHeld (changeLevels visit)
    return change nested := by
  have items := funext (FromItem.changeLevels_eq visit)
  rw [changeLevels_parts, items]
  simp only [changeHeld, bind_assoc]

end Levels

section Visits

variable {σ α β : Type}

/-- A visit on the way in, with a note of the level as it is found. -/
def Query.noting (visit : Query → StateM σ Query) (q : Query) : Tallying (σ × List Query) Query :=
  fun (s, seen) => some ((visit q s).1, (visit q s).2, seen ++ [q])

/-- The same visit, with the change of the level put off until the queries it holds have been changed. -/
def Query.putOff (visit : Query → StateM σ Query) (q : Query) : StateM σ (Query → Query) := do
  let level ← visit q
  return fun nested => level.holding nested.held

/-- A level whose from-list has been left alone, and in whose expressions no sub-query was added or removed on the
whole. One may have been removed at one place and added at another. -/
structure Query.SameHeld (before after : Query) : Prop where
  sources : after.fromList = before.fromList
  slotted : after.slotted.Perm before.slotted

theorem Query.SameHeld.held_perm {before after : Query} (same : before.SameHeld after) :
    after.held.Perm before.held := by
  rw [held, held, listed, listed, same.sources]
  exact same.slotted.append_left _

/-- No visit adds or removes a sub-query at any place of its level, so that none is moved either. -/
def Query.InPlaces (visit : Query → StateM σ Query) (q : Query) : Prop :=
  ∀ level ∈ q.levels, ∀ s, (visit level s).1.slotted = level.slotted

/-- A walk in place comes to an end, and on its way to just these levels, each of them as it stood before. When it
keeps `order`, it comes to them one after the other, and does what `plain` does. -/
def Follows (act : Tallying (σ × List Query) α) (levels : List Query) (order : Prop) (plain : StateM σ α) : Prop :=
  ∀ s seen, ∃ after s' visited, act (s, seen) = some (after, s', seen ++ visited) ∧ visited.Perm levels
    ∧ (order → visited = levels ∧ plain s = (after, s'))

theorem Follows.mono {act : Tallying (σ × List Query) α} {levels : List Query} {order order' : Prop}
    {plain : StateM σ α} (follows : Follows act levels order plain) (narrower : order' → order) :
    Follows act levels order' plain := by
  intro s seen
  obtain ⟨after, s', visited, ran, perm, ordered⟩ := follows s seen
  exact ⟨after, s', visited, ran, perm, fun order' => ordered (narrower order')⟩

theorem follows_pure (a : α) {order : Prop} :
    Follows (pure a : Tallying (σ × List Query) α) [] order (pure a) := by
  intro s seen
  refine ⟨a, s, [], ?_, .nil, fun _ => ⟨rfl, rfl⟩⟩
  rw [List.append_nil]
  rfl

theorem Follows.bind {act : Tallying (σ × List Query) α} {next : α → Tallying (σ × List Query) β}
    {levels more : List Query} {order : Prop} {plain : StateM σ α} {plainNext : α → StateM σ β}
    (here : Follows act levels order plain) (later : ∀ a, Follows (next a) more order (plainNext a)) :
    Follows (act >>= next) (levels ++ more) order (plain >>= plainNext) := by
  intro s seen
  obtain ⟨a, s', visited, ran, perm, ordered⟩ := here s seen
  obtain ⟨b, s'', further, ranOn, permOn, orderedOn⟩ := later a s' (seen ++ visited)
  refine ⟨b, s'', visited ++ further, ?_, perm.append permOn, fun order => ?_⟩
  · have whole : (act >>= next) (s, seen) = (act (s, seen)).bind fun reached => next reached.1 reached.2 := rfl
    rw [whole, ran, Option.bind_some, ranOn, List.append_assoc]
  · obtain ⟨rfl, same⟩ := ordered order
    obtain ⟨rfl, sameOn⟩ := orderedOn order
    refine ⟨rfl, ?_⟩
    have whole : (plain >>= plainNext) s = plainNext (plain s).1 (plain s).2 := rfl
    rw [whole, same, sameOn]

theorem Follows.map {act : Tallying (σ × List Query) α} {levels : List Query} {order : Prop} {plain : StateM σ α}
    (here : Follows act levels order plain) (f : α → β) :
    Follows (act >>= fun a => pure (f a)) levels order (plain >>= fun a => pure (f a)) := by
  have whole : Follows (act >>= fun a => pure (f a)) (levels ++ []) order (plain >>= fun a => pure (f a)) :=
    here.bind fun a => follows_pure (f a)
  rwa [List.append_nil] at whole

theorem follows_mapM {act : α → Tallying (σ × List Query) β} {levels : α → List Query} {order : Prop}
    {plain : α → StateM σ β} {as : List α} (each : ∀ a ∈ as, Follows (act a) (levels a) order (plain a)) :
    Follows (as.mapM act) (as.flatMap levels) order (as.mapM plain) := by
  induction as with
  | nil => exact follows_pure []
  | cons a rest ih =>
    obtain ⟨here, later⟩ := List.forall_mem_cons.mp each
    rw [List.mapM_cons, List.mapM_cons, List.flatMap_cons]
    exact here.bind fun b => (ih later).map (b :: ·)

section Left

/-- Where a walk in place comes to an end, what it has noted on its way goes with what it leaves. -/
def Notes (act : Tallying (σ × List Query) α) (Left : List Query → α → Prop) : Prop :=
  ∀ s seen a s' seen', act (s, seen) = some (a, s', seen') → ∃ visited, seen' = seen ++ visited ∧ Left visited a

variable {Left : List Query → α → Prop}

theorem notes_pure {a : α} (left : Left [] a) : Notes (pure a : Tallying (σ × List Query) α) Left := by
  intro s seen _ _ _ ran
  cases ran
  exact ⟨[], (List.append_nil seen).symm, left⟩

theorem Notes.bind {act : Tallying (σ × List Query) α} {next : α → Tallying (σ × List Query) β}
    {Later : α → List Query → β → Prop} {Whole : List Query → β → Prop} (here : Notes act Left)
    (later : ∀ a, Notes (next a) (Later a))
    (joined : ∀ {visited a further b}, Left visited a → Later a further b → Whole (visited ++ further) b) :
    Notes (act >>= next) Whole := by
  intro s seen b s'' seen'' ran
  obtain ⟨⟨a, s', seen'⟩, ranHere, ranOn⟩ := Option.bind_eq_some_iff.mp ran
  obtain ⟨visited, rfl, left⟩ := here _ _ _ _ _ ranHere
  obtain ⟨further, rfl, leftOn⟩ := later a _ _ _ _ _ ranOn
  exact ⟨visited ++ further, List.append_assoc .., joined left leftOn⟩

theorem Notes.map {act : Tallying (σ × List Query) α} {Whole : List Query → β → Prop} (here : Notes act Left)
    (f : α → β) (whole : ∀ {visited a}, Left visited a → Whole visited (f a)) : Notes (f <$> act) Whole := by
  have last (a : α) : Notes (pure (f a) : Tallying (σ × List Query) β) fun further b => further = [] ∧ b = f a :=
    notes_pure ⟨rfl, rfl⟩
  rw [map_eq_pure_bind]
  refine here.bind last ?_
  rintro visited a _ _ left ⟨rfl, rfl⟩
  rw [List.append_nil]
  exact whole left

end Left

variable {visit : Query → StateM σ Query}

/-- The queries held by the level that a visit leaves are walked through in their order. -/
theorem Query.follows_changeHeld {q : Query} {act : Query → Tallying (σ × List Query) Query} {order : Prop}
    {plain : Query → StateM σ Query} (each : ∀ sub ∈ q.held, Follows (act sub) sub.levels order (plain sub)) :
    Follows (q.changeHeld act) (q.held.flatMap levels) order (q.changeHeld plain) := by
  have runs := (follows_mapM each).map q.holding
  rwa [← map_eq_pure_bind, ← map_eq_pure_bind, ← q.holding_spec.2, ← q.holding_spec.2] at runs

/-- One level: the visit, and then whatever the changed level holds. -/
theorem Query.follows_level {q : Query} {depth : Nat} {order : Prop} (same : ∀ s, q.SameHeld (visit q s).1)
    (kept : order → ∀ s, (visit q s).1.slotted = q.slotted)
    (below : ∀ sub ∈ q.held, Follows (sub.walkInPlace (noting visit) depth) sub.levels order
      (sub.changeLevels (putOff visit))) :
    Follows (q.walkInPlace (noting visit) (depth + 1)) q.levels order (q.changeLevels (putOff visit)) := by
  intro s seen
  rcases visited : visit q s with ⟨level, s'⟩
  have same := same s
  rw [visited] at same
  have held := same.held_perm
  have inside := follows_changeHeld fun sub member => below sub (held.mem_iff.mp member)
  obtain ⟨after, s'', further, ran, perm, ordered⟩ := inside s' (seen ++ [q])
  refine ⟨after, s'', q :: further, ?_, ?_, fun order => ?_⟩
  · have whole : q.walkInPlace (noting visit) (depth + 1) (s, seen)
        = (visit q s).1.changeHeld (walkInPlace (noting visit) depth) ((visit q s).2, seen ++ [q]) := rfl
    rw [whole, visited, ran, List.append_assoc, List.singleton_append]
  · rw [q.levels_held]
    exact (perm.trans (held.flatMap_right levels)).cons q
  · have inPlace : level.held = q.held := by
      have kept := kept order s
      rw [visited] at kept
      rw [Query.held, Query.held, listed, listed, same.sources, kept]
    obtain ⟨rfl, answer⟩ := ordered order
    rw [q.levels_held, inPlace, q.changeLevels_eq]
    refine ⟨rfl, ?_⟩
    have whole : (do
        let change ← putOff visit q
        let nested ← q.changeHeld (changeLevels (putOff visit))
        return change nested) s = ((fun nested => (visit q s).1.holding nested.held)
          <$> q.changeHeld (changeLevels (putOff visit))) (visit q s).2 := rfl
    rw [whole, visited, ← changeHeld_holding inPlace, answer]

theorem Query.follows_walkInPlace (q : Query)
    (same : ∀ level ∈ q.levels, ∀ s, level.SameHeld (visit level s).1) :
    ∃ depth, ∀ d, depth ≤ d →
      Follows (q.walkInPlace (noting visit) d) q.levels (q.InPlaces visit) (q.changeLevels (putOff visit)) := by
  induction q using heldInduction with
  | level q ih =>
    have below : ∀ sub ∈ q.held, ∀ level ∈ sub.levels, level ∈ q.levels := by
      intro sub member level inside
      rw [q.levels_held]
      exact List.mem_cons_of_mem q (List.mem_flatMap.mpr ⟨sub, member, inside⟩)
    have each : ∀ sub ∈ q.held, ∃ depth, ∀ d, depth ≤ d →
        Follows (sub.walkInPlace (noting visit) d) sub.levels (q.InPlaces visit) (sub.changeLevels (putOff visit)) := by
      intro sub member
      obtain ⟨depth, reached⟩ := ih sub member fun level inside => same level (below sub member level inside)
      refine ⟨depth, fun d deep => (reached d deep).mono ?_⟩
      exact fun order level inside => order level (below sub member level inside)
    obtain ⟨depth, reached⟩ := common_depth each
    refine ⟨depth + 1, fun d deep => ?_⟩
    obtain ⟨d, rfl⟩ := Nat.exists_eq_add_of_le' (Nat.le_of_add_left_le deep)
    refine follows_level (same q q.self_mem_levels) (fun order => order q q.self_mem_levels) ?_
    exact reached d (Nat.le_of_add_le_add_right deep)

section Mapping

private theorem mapM_eq_pure {m : Type → Type} [Monad m] [LawfulMonad m] {act : α → m β} {f : α → β} {as : List α}
    (each : ∀ a ∈ as, act a = pure (f a)) : as.mapM act = pure (as.map f) := by
  induction as with
  | nil => exact List.mapM_nil
  | cons a rest ih =>
    obtain ⟨here, later⟩ := List.forall_mem_cons.mp each
    rw [List.mapM_cons, here, ih later, pure_bind, pure_bind, List.map_cons]

variable {change : Query → Query → Query}

theorem Query.holding_map (q : Query) (change : Query → Query) : q.holding (q.held.map change) = q.mapHeld change := by
  have ran := q.holding_spec.2 Id fun sub => pure (change sub)
  rw [List.mapM_pure] at ran
  exact ran.symm.trans (q.changeHeld_pure change)

theorem Query.held_mapHeld (q : Query) (change : Query → Query) : (q.mapHeld change).held = q.held.map change := by
  rw [← holding_map, q.holding_spec.1 _ (List.length_map change)]

theorem FromItem.mapLevels_eq_mapHeld (item : FromItem) :
    item.mapLevels change = item.mapHeld (Query.mapLevels change) := by
  induction item using treeInduction with
  | join left right kind on ihLeft ihRight => rw [mapLevels_join, ihLeft, ihRight, mapHeld]
  | _ => rfl

theorem Query.mapLevels_eq_mapHeld (q : Query) : q.mapLevels change = change q (q.mapHeld (mapLevels change)) := by
  have items : FromItem.mapLevels change = FromItem.mapHeld (Query.mapLevels change) :=
    funext FromItem.mapLevels_eq_mapHeld
  rw [mapLevels_eq, items, mapHeld]

/-- A change of the levels, each as it stands, that does nothing else. -/
def Query.inPlace (change : Query → Query → Query) (level : Query) : StateM Unit Query := pure (change level level)

variable (sources : ∀ q, (change q q).fromList = q.fromList) (slotted : ∀ q, (change q q).slotted = q.slotted)
  (commutes : ∀ q onHeld, (change q q).mapHeld onHeld = change q (q.mapHeld onHeld))

include sources slotted commutes

/-- A change that does not mind in which state the held queries are may be put off. -/
private theorem Query.changeLevels_inPlace (q : Query) :
    q.changeLevels (putOff (inPlace change)) = pure (q.mapLevels change) := by
  induction q using heldInduction with
  | level q ih =>
    have below : q.held.mapM (changeLevels (putOff (inPlace change))) = pure (q.held.map (mapLevels change)) :=
      mapM_eq_pure ih
    have same : (change q q).held = q.held := by rw [held, held, listed, listed, sources, slotted]
    rw [changeLevels_eq, q.holding_spec.2, below, map_pure, holding_map]
    change (pure ((change q q).holding (q.mapHeld (mapLevels change)).held) : StateM Unit Query) = _
    rw [held_mapHeld, ← same, holding_map, commutes, q.mapLevels_eq_mapHeld]

/-- A walk that changes each level on its way in leaves what comes of changing each level, if the change keeps to the
level itself. -/
theorem Query.walkInPlace_mapLevels (q : Query) : ∃ depth, ∀ d, depth ≤ d →
    q.walkInPlace (noting (inPlace change)) d ((), []) = some (q.mapLevels change, (), q.levels) := by
  have same (level : Query) (s : Unit) : level.SameHeld (inPlace change level s).1 :=
    ⟨sources level, .of_eq (slotted level)⟩
  obtain ⟨depth, follows⟩ := q.follows_walkInPlace fun level _ => same level
  refine ⟨depth, fun d deep => ?_⟩
  obtain ⟨after, _, visited, ran, _, ordered⟩ := follows d deep () []
  obtain ⟨rfl, answer⟩ := ordered fun level _ _ => slotted level
  rw [changeLevels_inPlace sources slotted commutes] at answer
  cases answer
  exact ran

end Mapping

section Sample

/-- `SELECT * FROM <n> AS t`. -/
private def rowsOf (n : Nat) : Query := .selectAll (.placeholder ⟨⟨n⟩, ⟨"run", "rows"⟩, "t"⟩)

/-- Exchanges the sides of a filter. -/
def exchanged (q : Query) : Query :=
  match q.filter with
  | some (.binary op left right) => { q with filter := some (.binary op right left) }
  | _ => q

def exchanging (q : Query) : StateM Unit Query := pure (exchanged q)

theorem sameHeld_exchanged (q : Query) : q.SameHeld (exchanged q) := by
  unfold exchanged
  split
  · rename_i op left right filter
    refine ⟨rfl, List.Perm.map Prod.snd ?_⟩
    have swapped : (right.slots ++ left.slots).Perm (left.slots ++ right.slots) := List.perm_append_comm
    simp only [Query.exprs, filter, Option.toList_some, List.flatMap_append, List.flatMap_cons, List.flatMap_nil,
      Expr.slots, List.append_nil]
    exact (((swapped.append_left _).append_right _).append_right _).append_right _
  · exact ⟨rfl, .refl _⟩

/-- `SELECT * FROM <0> AS t WHERE EXISTS (SELECT * FROM <1> AS t) AND EXISTS (SELECT * FROM <2> AS t)`. -/
def checkedRows : Query :=
  (rowsOf 0).addFilter (.and (.existsSubquery (rowsOf 1) false) (.existsSubquery (rowsOf 2) false))

/-- A sub-query that is removed at one place and added at another is come to at its new place, where reading finds it
from then on. -/
theorem checkedRows_exchanged : (∀ level ∈ checkedRows.levels, ∀ s, level.SameHeld (exchanging level s).1)
    ∧ checkedRows.levels = [checkedRows, rowsOf 1, rowsOf 2]
    ∧ ∃ after, checkedRows.walkInPlace (Query.noting exchanging) 2 ((), [])
        = some (after, (), [checkedRows, rowsOf 2, rowsOf 1])
      ∧ after.levels = [after, rowsOf 2, rowsOf 1] :=
  ⟨fun level _ _ => sameHeld_exchanged level, rfl, _, rfl, rfl⟩

end Sample

end Visits

end ApproxQuery
