import ApproxQuery.Proofs.Query.Traversal
import Mathlib.Algebra.Ring.Nat

/-! Queries changed in place, from the outside in: a visit changes a level, and the walk goes on into
whatever the changed level holds. Such a walk need not come to an end, so it is given a depth, and has
no answer where that does not reach to the bottom. -/
namespace ApproxQuery

/-- What may come to no end, and adds to a tally. -/
abbrev Tallying (σ : Type) := StateT σ Option

section Walking

variable {m : Type → Type} [Monad m]

/-- Changes the queries that an item holds: those of a join's sides, then those of its condition. -/
def FromItem.changeHeld (change : Query → m Query) : FromItem → m FromItem
  | .subquery query => do return .subquery (← change query)
  | .join left right kind on => do
    let left ← left.changeHeld change
    let right ← right.changeHeld change
    let on ← on.mapM (Expr.replaceSlots fun _ => change)
    return .join left right kind on
  | .table t => pure (.table t)
  | .placeholder ref => pure (.placeholder ref)

/-- Changes the queries that a level holds: those of its from-list, then those of its expressions. -/
def Query.changeHeld (change : Query → m Query) (q : Query) : m Query := do
  let fromList ← q.fromList.mapM (FromItem.changeHeld change)
  changeExprs (Expr.replaceSlots fun _ => change) { q with fromList }

end Walking

/-- Visits a level, and then walks into the queries that the changed level holds. -/
def Query.walkInPlace {σ : Type} (visit : Query → Tallying σ Query) : Nat → Query → Tallying σ Query
  | 0, _ => failure
  | depth + 1, q => do
    let level ← visit q
    level.changeHeld (walkInPlace visit depth)

/-- An item with the queries that it holds changed. -/
def FromItem.mapHeld (change : Query → Query) : FromItem → FromItem
  | .subquery query => .subquery (change query)
  | .join left right kind on =>
    .join (left.mapHeld change) (right.mapHeld change) kind (on.map (Expr.mapSlots change))
  | .table t => .table t
  | .placeholder ref => .placeholder ref

/-- A level with the queries that it holds changed. -/
def Query.mapHeld (change : Query → Query) : Query → Query :=
  Query.mapParts (FromItem.mapHeld change) (Expr.mapSlots change)

theorem FromItem.mapHeld_eq_self {change : Query → Query} {item : FromItem}
    (same : ∀ sub ∈ item.listed, change sub = sub) : item.mapHeld change = item := by
  induction item using FromItem.treeInduction with
  | table t => rfl
  | subquery q => exact congrArg FromItem.subquery (same q List.mem_cons_self)
  | join left right kind on ihLeft ihRight =>
    simp only [mem_listed_join] at same
    have inOn : on.map (Expr.mapSlots change) = on := by
      cases on with
      | none => rfl
      | some e => exact congrArg some (Expr.mapSlots_eq_self fun slot inSlots =>
          same slot.2 (.inr (.inr ⟨e, rfl, slot, inSlots, rfl⟩)))
    rw [mapHeld, ihLeft fun sub held => same sub (.inl held),
      ihRight fun sub held => same sub (.inr (.inl held)), inOn]
  | placeholder ref => rfl

namespace Query

variable {change : Query → Query} {q : Query}

theorem mapHeld_eq_self (same : ∀ sub ∈ q.held, change sub = sub) : q.mapHeld change = q := by
  obtain ⟨inItems, inSlots⟩ := List.forall_mem_append.mp same
  refine mapParts_eq_self (fun item own => ?_) fun e own => ?_
  · exact FromItem.mapHeld_eq_self fun sub inItem => inItems sub (List.mem_flatMap.mpr ⟨item, own, inItem⟩)
  · exact Expr.mapSlots_eq_self fun slot inSlot => inSlots slot.2 (mem_slotted.mpr ⟨e, own, slot, inSlot, rfl⟩)

end Query

theorem FromItem.rewrites_changeHeld (item : FromItem) :
    Rewrites item.listed (fun pairs item' => pairs.map Prod.snd = item'.listed)
      fun _ _ change => item.changeHeld change := by
  have slotted (e : Expr) :
      Rewrites (e.slots.map Prod.snd) (fun pairs e' => pairs.map Prod.snd = e'.slots.map Prod.snd)
        fun _ _ change => e.replaceSlots fun _ => change := by
    refine (e.rewrites_replaceSlots.reindex Prod.snd).mono ?_
    rintro _ e' ⟨slots, rfl, _, holds⟩
    simp [← holds]
  induction item using treeInduction with
  | table t => exact .pure rfl
  | subquery q =>
    refine (Rewrites.part (.subquery q) FromItem.subquery fun new => rfl).congr ?_
    exact fun m _ _ change => (map_eq_pure_bind _ _).symm
  | join left right kind on ihLeft ihRight =>
    have inOn := Rewrites.mapM_option fun e (_ : e ∈ on) => slotted e
    rw [listed, List.map_flatMap, List.append_assoc]
    refine ihLeft.bind fun left' => ihRight.bind fun right' => inOn.map (join left' right' kind ·) ?_
    intro _ on' condition _ inRight _ inLeft
    rw [List.map_append, List.map_append, inLeft, inRight, condition.map_eq_flatMap id, listed, List.map_flatMap,
      List.append_assoc]
  | placeholder ref => exact .pure rfl

/-- The queries that a level holds are changed in their order, and then it holds what was put in. -/
theorem Query.rewrites_changeHeld (q : Query) :
    Rewrites q.held (fun pairs q' => pairs.map Prod.snd = q'.held) fun _ _ change => q.changeHeld change := by
  have inItems := Rewrites.mapM fun (item : FromItem) (_ : item ∈ q.fromList) => item.rewrites_changeHeld
  refine inItems.bind fun fromList => ?_
  have inSlots := { q with fromList }.rewrites_replaceSlots.reindex Prod.snd
  refine inSlots.mono ?_
  rintro _ q' ⟨slots, rfl, refilled, holds⟩ pairs inItems
  have listed : pairs.map Prod.snd = q'.listed := by
    rw [Query.listed, refilled.rest.sources]
    exact inItems.map_eq_flatMap id
  rw [List.map_append, listed, held, slotted, ← holds]
  simp

theorem FromItem.changeHeld_pure (change : Query → Query) (item : FromItem) :
    Id.run (item.changeHeld fun sub => pure (change sub)) = item.mapHeld change := by
  induction item using treeInduction with
  | join left right kind on ihLeft ihRight =>
    rw [mapHeld, ← ihLeft, ← ihRight]
    cases on <;> rfl
  | _ => rfl

/-- A change of what a level holds that cannot fail. -/
theorem Query.changeHeld_pure (change : Query → Query) (q : Query) :
    Id.run (q.changeHeld fun sub => pure (change sub)) = q.mapHeld change := by
  have items : (FromItem.changeHeld (m := Id) fun sub => pure (change sub))
      = fun item => pure (item.mapHeld change) := funext (FromItem.changeHeld_pure change)
  rw [changeHeld, items]
  exact q.changeParts_pure (FromItem.mapHeld change) (Expr.mapSlots change)

/-- A sum over all levels is that of the level, and those of the queries that it holds. -/
theorem Query.length_flatMap_levels {α : Type} (each : Query → List α) (q : Query) :
    (q.levels.flatMap each).length
      = (each q).length + (q.held.map fun sub => (sub.levels.flatMap each).length).sum := by
  rw [q.levels_held, List.flatMap_cons, List.length_append, List.flatMap_assoc, List.length_flatMap]

section Tally

variable {σ α β : Type} [AddMonoid σ]

/-- There is an answer, and so much is added to the tally. -/
def Tallies (act : Tallying σ α) (value : α) (added : σ) : Prop :=
  ∀ tally, act tally = some (value, tally + added)

theorem tallies_pure (value : α) : Tallies (pure value : Tallying σ α) value 0 := by
  intro tally
  rw [add_zero]
  rfl

theorem Tallies.bind {act : Tallying σ α} {next : α → Tallying σ β} {a : α} {b : β} {first second : σ}
    (here : Tallies act a first) (later : Tallies (next a) b second) :
    Tallies (act >>= next) b (first + second) := by
  intro tally
  have whole : (act >>= next) tally = (act tally).bind fun reached => next reached.1 reached.2 := rfl
  rw [whole, here tally, Option.bind_some, later, add_assoc]

theorem Tallies.map {act : Tallying σ α} {a : α} {added : σ} (here : Tallies act a added) (f : α → β) :
    Tallies (act >>= fun a => pure (f a)) (f a) added := by
  have whole : Tallies (act >>= fun a => pure (f a)) (f a) (added + 0) := here.bind (tallies_pure (f a))
  rwa [add_zero] at whole

variable {act : α → Tallying σ β} {f : α → β} {tally : α → σ}

theorem tallies_mapM {as : List α} (each : ∀ a ∈ as, Tallies (act a) (f a) (tally a)) :
    Tallies (as.mapM act) (as.map f) (as.map tally).sum := by
  induction as with
  | nil => exact tallies_pure []
  | cons a rest ih =>
    rw [List.mapM_cons, List.map_cons, List.map_cons, List.sum_cons]
    have later := ih fun a member => each a (List.mem_cons_of_mem _ member)
    exact (each a List.mem_cons_self).bind (later.map (f a :: ·))

/-- Whatever is added at the parts that a walk rewrites is added up from left to right. -/
theorem tallies_of_rewrites {γ : Type} {parts : List α} {Shape : List (α × β) → γ → Prop}
    {walk : (m : Type → Type) → [Monad m] → (α → m β) → m γ} (rewrites : Rewrites parts Shape walk)
    (each : ∀ a ∈ parts, Tallies (act a) (f a) (tally a)) :
    Tallies (walk (Tallying σ) act) (Id.run (walk Id fun a => pure (f a))) (parts.map tally).sum := by
  obtain ⟨fill, _, runs⟩ := rewrites
  have value : Id.run (walk Id fun a => pure (f a)) = fill (parts.map f) := by
    rw [runs, List.mapM_pure]
    rfl
  rw [value, runs, map_eq_pure_bind]
  exact (tallies_mapM each).map fill

variable {change : Query → Tallying σ Query} {after : Query → Query} {added : Query → σ}

theorem Expr.tallies_replaceSlots {e : Expr}
    (each : ∀ slot ∈ e.slots, Tallies (change slot.2) (after slot.2) (added slot.2)) :
    Tallies (e.replaceSlots fun _ => change) (e.mapSlots after) (e.slots.map fun slot => added slot.2).sum :=
  tallies_of_rewrites e.rewrites_replaceSlots each

theorem Query.tallies_changeExprs {onExpr : Expr → Tallying σ Expr} {after : Expr → Expr}
    {added : Expr → σ} {q : Query} (each : ∀ e ∈ q.exprs, Tallies (onExpr e) (after e) (added e)) :
    Tallies (q.changeExprs onExpr) (q.mapParts (fun item => item) after) (q.exprs.map added).sum := by
  rw [← changeExprs_pure]
  exact tallies_of_rewrites q.rewrites_changeExprs each

theorem Query.tallies_changeHeld {q : Query}
    (each : ∀ sub ∈ q.held, Tallies (change sub) (after sub) (added sub)) :
    Tallies (q.changeHeld change) (q.mapHeld after) (q.held.map added).sum := by
  rw [← changeHeld_pure]
  exact tallies_of_rewrites q.rewrites_changeHeld each

end Tally

section Failing

variable {σ α β : Type}

/-- There is no answer, whatever the tally. -/
def Fails (act : Tallying σ α) : Prop := ∀ tally, act tally = none

theorem Fails.bind {act : Tallying σ α} (fails : Fails act) (next : α → Tallying σ β) :
    Fails (act >>= next) := by
  intro tally
  have whole : (act >>= next) tally = (act tally).bind fun reached => next reached.1 reached.2 := rfl
  rw [whole, fails tally, Option.bind_none]

theorem fails_bind_of_next {act : Tallying σ α} {next : α → Tallying σ β}
    (fails : ∀ tally a tally', act tally = some (a, tally') → Fails (next a)) : Fails (act >>= next) := by
  intro tally
  have whole : (act >>= next) tally = (act tally).bind fun reached => next reached.1 reached.2 := rfl
  rw [whole]
  cases done : act tally with
  | none => rfl
  | some reached => exact fails tally reached.1 reached.2 done reached.2

theorem fails_mapM {act : α → Tallying σ β} {as : List α} {a : α} (member : a ∈ as) (fails : Fails (act a)) :
    Fails (as.mapM act) := by
  induction as with
  | nil => cases member
  | cons first rest ih =>
    rw [List.mapM_cons]
    rcases List.mem_cons.mp member with rfl | later
    · exact fails.bind _
    · exact fails_bind_of_next fun _ b _ _ => (ih later).bind _

/-- A walk fails where it fails at a part that it rewrites. -/
theorem fails_of_rewrites {γ : Type} {parts : List α} {Shape : List (α × β) → γ → Prop}
    {walk : (m : Type → Type) → [Monad m] → (α → m β) → m γ} (rewrites : Rewrites parts Shape walk)
    {act : α → Tallying σ β} {a : α} (member : a ∈ parts) (fails : Fails (act a)) :
    Fails (walk (Tallying σ) act) := by
  obtain ⟨fill, _, runs⟩ := rewrites
  rw [runs, map_eq_pure_bind]
  exact (fails_mapM member fails).bind _

end Failing

namespace Query

variable {σ : Type} {visit : Query → Tallying σ Query}

/-- From some depth on, the walk answers so, and adds so much. -/
def Walked [AddMonoid σ] (visit : Query → Tallying σ Query) (q after : Query) (added : σ) : Prop :=
  ∃ depth, ∀ d, depth ≤ d → Tallies (q.walkInPlace visit d) after added

/-- For finitely many queries one depth is enough. -/
theorem common_depth {reached : Nat → Query → Prop} {subs : List Query}
    (each : ∀ sub ∈ subs, ∃ depth, ∀ d, depth ≤ d → reached d sub) :
    ∃ depth, ∀ d, depth ≤ d → ∀ sub ∈ subs, reached d sub := by
  induction subs with
  | nil => exact ⟨0, fun _ _ => List.forall_mem_nil _⟩
  | cons sub rest ih =>
    obtain ⟨⟨depth, first⟩, later⟩ := List.forall_mem_cons.mp each
    obtain ⟨depth', others⟩ := ih later
    refine ⟨max depth depth', fun d deep => List.forall_mem_cons.mpr ⟨?_, ?_⟩⟩
    · exact first d (Nat.le_trans (Nat.le_max_left depth depth') deep)
    · exact others d (Nat.le_trans (Nat.le_max_right depth depth') deep)

/-- A walk comes to an end when it does in whatever the visited level holds. -/
theorem walked_of_held [AddMonoid σ] {q level : Query} {own : σ} {after : Query → Query} {added : Query → σ}
    (visited : Tallies (visit q) level own)
    (below : ∀ sub ∈ level.held, Walked visit sub (after sub) (added sub)) :
    Walked visit q (level.mapHeld after) (own + (level.held.map added).sum) := by
  obtain ⟨depth, reached⟩ := common_depth below
  refine ⟨depth + 1, fun d deep => ?_⟩
  obtain ⟨d, rfl⟩ := Nat.exists_eq_add_of_le' (Nat.le_of_add_left_le deep)
  exact visited.bind (tallies_changeHeld (reached d (Nat.le_of_add_le_add_right deep)))

/-- A walk comes to no end when every visit leaves, among what the level holds, a query like the one
visited. -/
theorem walk_fails (endless : Query → Prop) (step : ∀ q, endless q → ∀ tally level tally',
      visit q tally = some (level, tally') → ∃ sub ∈ level.held, endless sub) (depth : Nat) {q : Query}
    (here : endless q) : Fails (q.walkInPlace visit depth) := by
  induction depth generalizing q with
  | zero => exact fun tally => rfl
  | succ depth ih =>
    refine fails_bind_of_next fun tally level tally' visited => ?_
    obtain ⟨sub, held, again⟩ := step q here tally level tally' visited
    exact fails_of_rewrites level.rewrites_changeHeld held (ih again)

end Query

end ApproxQuery
