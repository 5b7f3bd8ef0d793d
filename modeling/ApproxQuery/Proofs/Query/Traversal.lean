import ApproxQuery.Proofs.Query.Levels

/-! Walks that rewrite, beside those that read. A walk over an expression or a level puts something in place of just
the parts that its counterpart lists, in their order, and leaves everything else as it is. -/
namespace ApproxQuery

section Rules

variable {ι α β γ δ : Type}

/-- A walk puts something in place of each part, from left to right, whatever the monad in which that happens. What
comes out has a shape that goes by the parts and what was put in their place. -/
def Rewrites (parts : List α) (Shape : List (α × β) → γ → Prop)
    (walk : (m : Type → Type) → [Monad m] → (α → m β) → m γ) : Prop :=
  ∃ fill : List β → γ, (∀ news, news.length = parts.length → Shape (parts.zip news) (fill news))
    ∧ ∀ (m : Type → Type) [Monad m] [LawfulMonad m] (replace : α → m β),
      walk m replace = fill <$> parts.mapM replace

/-- Shapes side by side: each takes its share of the pairs. -/
inductive Together (Shape : ι → List α → γ → Prop) : List ι → List α → List γ → Prop where
  | nil : Together Shape [] [] []
  | cons {i : ι} {is : List ι} {pairs more : List α} {c : γ} {cs : List γ} (first : Shape i pairs c)
      (rest : Together Shape is more cs) : Together Shape (i :: is) (pairs ++ more) (c :: cs)

namespace Together

variable {Shape Shape' : ι → List α → γ → Prop} {is : List ι} {pairs : List α} {cs : List γ}

theorem length_eq (together : Together Shape is pairs cs) : cs.length = is.length := by
  induction together with
  | nil => rfl
  | cons _ _ ih => rw [List.length_cons, List.length_cons, ih]

theorem mono (each : ∀ {i pairs c}, Shape i pairs c → Shape' i pairs c) (together : Together Shape is pairs cs) :
    Together Shape' is pairs cs := by
  induction together with
  | nil => exact .nil
  | cons first _ ih => exact .cons (each first) ih

theorem map_eq_flatMap {f : α → β} {own : γ → List β} (each : ∀ {i pairs c}, Shape i pairs c → pairs.map f = own c)
    (together : Together Shape is pairs cs) : pairs.map f = cs.flatMap own := by
  induction together with
  | nil => rfl
  | cons first _ ih => rw [List.map_append, List.flatMap_cons, each first, ih]

theorem map_eq_map {kept : ι → β} {kept' : γ → β} (each : ∀ {i pairs c}, Shape i pairs c → kept' c = kept i)
    (together : Together Shape is pairs cs) : cs.map kept' = is.map kept := by
  induction together with
  | nil => rfl
  | cons first _ ih => rw [List.map_cons, List.map_cons, each first, ih]

end Together

/-- A list that is made part by part has as many members as there are parts. -/
theorem bind_congr_of_length {m : Type → Type} [Monad m] [LawfulMonad m] {act : α → m β} {as : List α}
    {f g : List β → m γ} (same : ∀ bs, bs.length = as.length → f bs = g bs) :
    as.mapM act >>= f = as.mapM act >>= g := by
  induction as generalizing f g with
  | nil => rw [List.mapM_nil, pure_bind, pure_bind, same [] rfl]
  | cons a rest ih =>
    simp only [List.mapM_cons, bind_assoc, pure_bind]
    apply bind_congr
    intro b
    apply ih
    intro bs length
    exact same (b :: bs) (congrArg (· + 1) length)

namespace Rewrites

variable {parts parts' : List α} {Shape : List (α × β) → γ → Prop}
  {walk : (m : Type → Type) → [Monad m] → (α → m β) → m γ}

theorem congr {walk' : (m : Type → Type) → [Monad m] → (α → m β) → m γ} (rewrites : Rewrites parts Shape walk)
    (same : ∀ (m : Type → Type) [Monad m] [LawfulMonad m] (replace : α → m β),
      walk' m replace = walk m replace) : Rewrites parts Shape walk' := by
  obtain ⟨fill, shape, runs⟩ := rewrites
  exact ⟨fill, shape, fun m _ _ replace => (same m replace).trans (runs m replace)⟩

theorem pure {c : γ} (shape : Shape [] c) :
    Rewrites ([] : List α) Shape fun _ _ _ => Pure.pure c := by
  refine ⟨fun _ => c, fun _ _ => shape, fun m _ _ replace => ?_⟩
  rw [List.mapM_nil, map_pure]

/-- A single part. The walk never leaves it as it was, so `blank` is of no account. -/
theorem part {a : α} (blank : γ) (put : β → γ) (shape : ∀ b, Shape [(a, b)] (put b)) :
    Rewrites [a] Shape fun _ _ replace => put <$> replace a := by
  refine ⟨fun news => (news.head?.map put).getD blank, fun news single => ?_, fun m _ _ replace => ?_⟩
  · obtain ⟨b, rfl⟩ := List.length_eq_one_iff.mp single
    exact shape b
  · simp

theorem map {Shape' : List (α × β) → δ → Prop} (rewrites : Rewrites parts Shape walk) (f : γ → δ)
    (shape : ∀ {pairs c}, Shape pairs c → Shape' pairs (f c)) :
    Rewrites parts Shape' fun m _ replace => walk m replace >>= fun c => Pure.pure (f c) := by
  obtain ⟨fill, filled, runs⟩ := rewrites
  refine ⟨fun news => f (fill news), fun news length => shape (filled news length), fun m _ _ replace => ?_⟩
  simp [runs]

/-- One walk after the other: the second may go by what the first has made. -/
theorem bind {Shape' : List (α × β) → δ → Prop}
    {next : γ → (m : Type → Type) → [Monad m] → (α → m β) → m δ} (first : Rewrites parts Shape walk)
    (later : ∀ c, Rewrites parts' (fun more d => ∀ {pairs}, Shape pairs c → Shape' (pairs ++ more) d) (next c)) :
    Rewrites (parts ++ parts') Shape' fun m _ replace => walk m replace >>= fun c => next c m replace := by
  obtain ⟨fill, filled, runs⟩ := first
  choose fill' filled' runs' using later
  refine ⟨fun news => fill' (fill (news.take parts.length)) (news.drop parts.length),
    fun news length => ?_, fun m _ _ replace => ?_⟩
  · rw [List.length_append] at length
    have own : (news.take parts.length).length = parts.length := by
      rw [List.length_take]
      omega
    have split : (parts ++ parts').zip news
        = parts.zip (news.take parts.length) ++ parts'.zip (news.drop parts.length) := by
      rw [← List.zip_append own.symm, List.take_append_drop]
    rw [split]
    refine filled' _ _ ?_ (filled _ own)
    rw [List.length_drop]
    omega
  · simp only [runs, runs', List.mapM_append, map_eq_pure_bind, bind_assoc, pure_bind]
    apply bind_congr_of_length
    intro news length
    apply bind_congr
    intro more
    rw [← length, List.take_left, List.drop_left]

theorem mapM {own : ι → List α} {Shape : ι → List (α × β) → γ → Prop}
    {walk : ι → (m : Type → Type) → [Monad m] → (α → m β) → m γ} {is : List ι}
    (each : ∀ i ∈ is, Rewrites (own i) (Shape i) (walk i)) :
    Rewrites (is.flatMap own) (Together Shape is) fun m _ replace => is.mapM fun i => walk i m replace := by
  induction is with
  | nil => exact (pure .nil).congr fun m _ _ replace => List.mapM_nil
  | cons i rest ih =>
    obtain ⟨here, later⟩ := List.forall_mem_cons.mp each
    refine (here.bind fun c => (ih later).map (c :: ·) ?_).congr fun m _ _ replace => List.mapM_cons
    exact fun rest pairs first => .cons first rest

theorem mapM_option {own : ι → List α} {Shape : ι → List (α × β) → γ → Prop}
    {walk : ι → (m : Type → Type) → [Monad m] → (α → m β) → m γ} {clause : Option ι}
    (each : ∀ i ∈ clause, Rewrites (own i) (Shape i) (walk i)) :
    Rewrites (clause.toList.flatMap own) (fun pairs (c : Option γ) => Together Shape clause.toList pairs c.toList)
      fun m _ replace => clause.mapM fun i => walk i m replace := by
  cases clause with
  | none => exact (pure .nil).congr fun m _ _ replace => rfl
  | some i =>
    have single : [i].flatMap own = own i := List.flatMap_singleton own i
    rw [Option.toList_some, single]
    refine ((each i rfl).map some fun {pairs _} shape => ?_).congr fun m _ _ replace => map_eq_pure_bind _ _
    rw [Option.toList_some, ← List.append_nil pairs]
    exact .cons shape .nil

theorem mono {Shape' : List (α × β) → γ → Prop} (rewrites : Rewrites parts Shape walk)
    (shape : ∀ {pairs c}, Shape pairs c → Shape' pairs c) : Rewrites parts Shape' walk := by
  obtain ⟨fill, filled, runs⟩ := rewrites
  exact ⟨fill, fun news length => shape (filled news length), runs⟩

/-- A walk that looks at its parts from one side only. -/
theorem reindex (side : α → δ) {walk : (m : Type → Type) → [Monad m] → (α → m β) → m γ}
    (rewrites : Rewrites parts Shape walk) :
    Rewrites (parts.map side) (fun pairs c => ∃ whole, whole.map (Prod.map side id) = pairs ∧ Shape whole c)
      fun m _ replace => walk m fun a => replace (side a) := by
  obtain ⟨fill, filled, runs⟩ := rewrites
  refine ⟨fill, fun news length => ?_, fun m _ _ replace => ?_⟩
  · rw [List.length_map] at length
    exact ⟨parts.zip news, (List.zip_map_left ..).symm, filled news length⟩
  · refine (runs m fun a => replace (side a)).trans ?_
    rw [List.mapM_map]
    rfl

/-- A walk over parts that are walked through themselves. -/
theorem comp {own : α → List δ} {Inner : α → List (δ × ι) → β → Prop}
    {inner : α → (m : Type → Type) → [Monad m] → (δ → m ι) → m β} (outer : Rewrites parts Shape walk)
    (each : ∀ a ∈ parts, Rewrites (own a) (Inner a) (inner a)) :
    Rewrites (parts.flatMap own)
      (fun pairs c => ∃ bs, Together Inner parts pairs bs ∧ Shape (parts.zip bs) c)
      fun m _ replace => walk m fun a => inner a m replace := by
  obtain ⟨fill, filled, runs⟩ := outer
  refine ((mapM each).map fill fun {pairs bs} together => ?_).congr fun m _ _ replace => ?_
  · exact ⟨bs, together, filled bs together.length_eq⟩
  · rw [runs, map_eq_pure_bind]

end Rewrites

end Rules

section Aggregates

end Aggregates

section Slots

/-- Other queries stand in the slots of an expression, which the pairs list from left to right, each with what came
in its place. The rest is the same. -/
inductive Expr.Refilled : Expr → List ((SubqueryKind × Query) × Query) → Expr → Prop where
  | subquery (query new : Query) : Refilled (.subquery query) [((.scalar, query), new)] (.subquery new)
  | inSubquery {operand operand' : Expr} {slots : List ((SubqueryKind × Query) × Query)} (query new : Query)
      (negated : Bool) (inside : Refilled operand slots operand') :
      Refilled (.inSubquery operand query negated) (slots ++ [((.membership, query), new)])
        (.inSubquery operand' new negated)
  | existsSubquery (query new : Query) (negated : Bool) :
      Refilled (.existsSubquery query negated) [((.existence, query), new)] (.existsSubquery new negated)
  | func {args args' : List Expr} {slots : List ((SubqueryKind × Query) × Query)} (name : String) (distinct : Bool)
      (inside : Together Refilled args slots args') :
      Refilled (.func name args distinct) slots (.func name args' distinct)
  | binary {left right left' right' : Expr} {slots more : List ((SubqueryKind × Query) × Query)} (op : BinaryOp)
      (inLeft : Refilled left slots left') (inRight : Refilled right more right') :
      Refilled (.binary op left right) (slots ++ more) (.binary op left' right')
  | not {operand operand' : Expr} {slots : List ((SubqueryKind × Query) × Query)}
      (inside : Refilled operand slots operand') : Refilled (.not operand) slots (.not operand')
  | isNull {operand operand' : Expr} {slots : List ((SubqueryKind × Query) × Query)} (negated : Bool)
      (inside : Refilled operand slots operand') :
      Refilled (.isNull operand negated) slots (.isNull operand' negated)
  | column (table : Option String) (name : String) : Refilled (.column table name) [] (.column table name)
  | literal (value : Literal) : Refilled (.literal value) [] (.literal value)
  | star (table : Option String) : Refilled (.star table) [] (.star table)

/-- The slots are refilled, and hold afterwards what was put in. -/
def Expr.Holds (e : Expr) (slots : List ((SubqueryKind × Query) × Query)) (e' : Expr) : Prop :=
  e.Refilled slots e' ∧ slots.map (fun slot => (slot.1.1, slot.2)) = e'.slots

/-- The slots that are replaced are those that are listed. -/
theorem Expr.rewrites_replaceSlots (e : Expr) :
    Rewrites e.slots e.Holds fun _ _ replace => e.replaceSlots fun kind query => replace (kind, query) := by
  refine ExprRule.expr (E := fun e =>
    Rewrites e.slots e.Holds fun _ _ replace => e.replaceSlots fun kind query => replace (kind, query)) ?_ e
  constructor
  case subquery =>
    intro query
    refine (Rewrites.part (.subquery query) Expr.subquery fun new => ⟨.subquery query new, rfl⟩).congr ?_
    exact fun m _ _ replace => (map_eq_pure_bind _ _).symm
  case existsSubquery =>
    intro query negated
    refine (Rewrites.part (.existsSubquery query negated) (existsSubquery · negated) fun new =>
      ⟨.existsSubquery query new negated, rfl⟩).congr ?_
    exact fun m _ _ replace => (map_eq_pure_bind _ _).symm
  case inSubquery =>
    intro operand query negated ih
    refine (ih.bind fun operand' => Rewrites.part (.inSubquery operand query negated)
      (inSubquery operand' · negated) fun new _ inside => ?_).congr ?_
    · refine ⟨.inSubquery query new negated inside.1, ?_⟩
      rw [List.map_append, inside.2]
      rfl
    · intro m _ _ replace
      rw [replaceSlots]
      simp only [map_eq_pure_bind]
  case func =>
    intro name args distinct ih
    rw [slots, slotsIn_eq]
    have shape {slots : List ((SubqueryKind × Query) × Query)} {args' : List Expr}
        (inside : Together Holds args slots args') : (func name args distinct).Holds slots (func name args' distinct) := by
      refine ⟨.func name distinct (inside.mono And.left), ?_⟩
      rw [inside.map_eq_flatMap And.right, Expr.slots, slotsIn_eq]
    refine ((Rewrites.mapM ih).map (func name · distinct) shape).congr fun m _ _ replace => ?_
    rw [replaceSlots, replaceSlotsIn_eq]
  case binary =>
    intro op left right ihLeft ihRight
    refine ihLeft.bind fun left' => ihRight.map (binary op left' ·) fun inRight _ inLeft => ⟨?_, ?_⟩
    · exact .binary op inLeft.1 inRight.1
    · rw [List.map_append, inLeft.2, inRight.2, slots]
  case not => exact fun operand ih => ih.map Expr.not fun inside => ⟨.not inside.1, inside.2⟩
  case isNull =>
    exact fun operand negated ih => ih.map (isNull · negated) fun inside => ⟨.isNull negated inside.1, inside.2⟩
  case column => exact fun table name => .pure ⟨.column table name, rfl⟩
  case literal => exact fun value => .pure ⟨.literal value, rfl⟩
  case star => exact fun table => .pure ⟨.star table, rfl⟩

end Slots

section Levels

namespace Query

/-- What a level has besides its expressions, and how many of these stand in which clause. -/
structure SameClauses (q q' : Query) : Prop where
  outputs : q'.selectList.map SelectItem.asName = q.selectList.map SelectItem.asName
  sources : q'.fromList = q.fromList
  filter : q'.filter.isSome = q.filter.isSome
  groups : q'.groupBy.length = q.groupBy.length
  having : q'.having.isSome = q.having.isSome
  directions : q'.orderBy.map OrderItem.descending = q.orderBy.map OrderItem.descending
  limit : q'.limit = q.limit
  asName : q'.asName = q.asName

private theorem isSome_eq {α : Type} {clause clause' : Option α}
    (same : clause'.toList.length = clause.toList.length) : clause'.isSome = clause.isSome := by
  cases clause <;> cases clause' <;> simp_all

/-- The expressions of a level are changed in their order, and nothing but them. -/
theorem rewrites_changeExprs (q : Query) :
    Rewrites q.exprs (fun pairs q' => q'.exprs = pairs.map Prod.snd ∧ q.SameClauses q')
      fun _ _ change => q.changeExprs change := by
  have clause (e : Expr) : Rewrites [e] (fun pairs e' => pairs.map Prod.snd = [e']) fun _ _ change => id <$> change e :=
    .part e id fun _ => rfl
  have selected : Rewrites (q.selectList.flatMap fun item => [item.expr])
      (Together (fun item pairs (item' : SelectItem) => pairs.map Prod.snd = [item'.expr] ∧ item'.asName = item.asName)
        q.selectList)
      fun _ _ change => q.selectList.mapM fun item => (fun e => { item with expr := e }) <$> change item.expr :=
    .mapM fun item _ => .part item _ fun _ => ⟨rfl, rfl⟩
  have sorted : Rewrites (q.orderBy.flatMap fun item => [item.expr])
      (Together (fun item pairs (item' : OrderItem) => pairs.map Prod.snd = [item'.expr]
        ∧ item'.descending = item.descending) q.orderBy)
      fun _ _ change => q.orderBy.mapM fun item => (fun e => { item with expr := e }) <$> change item.expr :=
    .mapM fun item _ => .part item _ fun _ => ⟨rfl, rfl⟩
  have filtered := Rewrites.mapM_option fun e (_ : e ∈ q.filter) => clause e
  have grouped := Rewrites.mapM fun e (_ : e ∈ q.groupBy) => clause e
  have having' := Rewrites.mapM_option fun e (_ : e ∈ q.having) => clause e
  have parts : q.exprs = (q.selectList.flatMap fun item => [item.expr]) ++ (q.filter.toList.flatMap (fun e => [e])
      ++ (q.groupBy.flatMap (fun e => [e]) ++ (q.having.toList.flatMap (fun e => [e])
        ++ q.orderBy.flatMap fun item => [item.expr]))) := by
    simp [exprs, List.append_assoc, ← List.map_eq_flatMap]
  rw [parts]
  refine (selected.bind fun selectList => filtered.bind fun filter => grouped.bind fun groupBy =>
    having'.bind fun having => sorted.map
      (fun orderBy => { q with selectList, filter, groupBy, having, orderBy }) ?_).congr fun m _ _ change => ?_
  · intro _ orderBy inOrder _ inHaving _ inGroup _ inFilter _ inSelect
    constructor
    · simp only [exprs, List.map_append, inSelect.map_eq_flatMap And.left, inFilter.map_eq_flatMap id,
        inGroup.map_eq_flatMap id, inHaving.map_eq_flatMap id, inOrder.map_eq_flatMap And.left]
      simp [← List.map_eq_flatMap]
    · exact {
        outputs := inSelect.map_eq_map And.right
        sources := rfl
        filter := isSome_eq inFilter.length_eq
        groups := inGroup.length_eq
        having := isSome_eq inHaving.length_eq
        directions := inOrder.map_eq_map And.right
        limit := rfl
        asName := rfl }
  · simp [changeExprs]

/-- Other queries stand in the slots of a level's expressions, which the pairs list in their order, each with what
came in its place. The rest is the same. -/
structure Refilled (q : Query) (slots : List ((SubqueryKind × Query) × Query)) (q' : Query) : Prop where
  exprs : Together Expr.Refilled q.exprs slots q'.exprs
  rest : q.SameClauses q'

/-- The slots of a level that are replaced are those that are listed, and hold afterwards what was put in. -/
theorem rewrites_replaceSlots (q : Query) : Rewrites (q.exprs.flatMap Expr.slots)
    (fun slots q' => q.Refilled slots q' ∧ slots.map (fun slot => (slot.1.1, slot.2)) = q'.exprs.flatMap Expr.slots)
    fun _ _ replace => q.changeExprs (Expr.replaceSlots fun kind query => replace (kind, query)) := by
  refine (q.rewrites_changeExprs.comp fun e _ => e.rewrites_replaceSlots).mono ?_
  rintro slots q' ⟨es, together, same, clauses⟩
  have whole : q'.exprs = es := by
    rw [same, List.map_snd_zip]
    exact Nat.le_of_eq together.length_eq
  rw [← whole] at together
  exact ⟨⟨together.mono And.left, clauses⟩, together.map_eq_flatMap And.right⟩

end Query

end Levels

end ApproxQuery
