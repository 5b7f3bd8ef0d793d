import ApproxQuery.Proofs.AscendingMap
import ApproxQuery.Proofs.Query.Scope
import ApproxQuery.Proofs.Query.Validation
import Mathlib.Data.String.Basic

/-! References that nothing binds, looked for from the top: wherever a name is referred to, the levels
passed on the way down are asked whether they bind it. The free names of a query are exactly these. -/
namespace ApproxQuery

/-- A column or star at this expression's own level bears the qualifier. Queries in slots are not
entered. -/
inductive Expr.Refers (name : String) : Expr → Prop
  | column (own : String) : Refers name (.column (some name) own)
  | star : Refers name (.star (some name))
  | argument {func : String} {args : List Expr} {distinct : Bool} {e : Expr} : e ∈ args → Refers name e →
      Refers name (.func func args distinct)
  | left {op : BinaryOp} {left right : Expr} : Refers name left → Refers name (.binary op left right)
  | right {op : BinaryOp} {left right : Expr} : Refers name right → Refers name (.binary op left right)
  | not {operand : Expr} : Refers name operand → Refers name (.not operand)
  | isNull {operand : Expr} {negated : Bool} : Refers name operand → Refers name (.isNull operand negated)
  | tested {operand : Expr} {query : Query} {negated : Bool} : Refers name operand →
      Refers name (.inSubquery operand query negated)

namespace Query

/-- A clause of the level, or a join condition in its from-list, refers to the name. -/
def Refers (level : Query) (name : String) : Prop :=
  ∃ e, (e ∈ level.exprs ∨ e ∈ level.joinConditions) ∧ e.Refers name

/-- The levels that are passed from a query down to one of its levels, both included. -/
inductive Path : Query → List Query → Query → Prop
  | here (q : Query) : Path q [q] q
  | down {q sub level : Query} {below : List Query} : sub ∈ q.held → Path sub below level →
      Path q (q :: below) level

/-- At some level of the query there is a reference that no level from there up to the query binds. -/
def Dangles (q : Query) (name : String) : Prop :=
  ∃ path level, q.Path path level ∧ level.Refers name ∧ ∀ scope ∈ path, name ∉ scope.boundNames

end Query

variable {name : String}

theorem Expr.mem_qualifiers {e : Expr} : name ∈ e.qualifiers ↔ e.Refers name := by
  constructor
  · refine ExprRule.expr (E := fun e => name ∈ e.qualifiers → e.Refers name) ?_ e
    constructor
    case column =>
      intro table own member
      cases Option.mem_toList.mp member
      exact .column own
    case star =>
      intro table member
      cases Option.mem_toList.mp member
      exact .star
    case func =>
      intro func args distinct ih member
      rw [qualifiers, qualifiersIn_eq] at member
      obtain ⟨e, inArgs, own⟩ := List.mem_flatMap.mp member
      exact .argument inArgs (ih e inArgs own)
    case binary =>
      intro op left right ihLeft ihRight member
      rcases List.mem_append.mp member with inLeft | inRight
      · exact .left (ihLeft inLeft)
      · exact .right (ihRight inRight)
    case not => exact fun operand ih member => .not (ih member)
    case isNull => exact fun operand negated ih member => .isNull (ih member)
    case inSubquery => exact fun operand query negated ih member => .tested (ih member)
    case literal =>
      intro value member
      cases member
    case subquery =>
      intro query member
      cases member
    case existsSubquery =>
      intro query negated member
      cases member
  · intro refers
    induction refers with
    | column own => exact List.mem_cons_self
    | star => exact List.mem_cons_self
    | argument inArgs _ ih =>
      rw [qualifiers, qualifiersIn_eq]
      exact List.mem_flatMap.mpr ⟨_, inArgs, ih⟩
    | left _ ih => exact List.mem_append_left _ ih
    | right _ ih => exact List.mem_append_right _ ih
    | not _ ih => exact ih
    | isNull _ ih => exact ih
    | tested _ ih => exact ih

/-- What an item leaves free: the qualifiers in its join conditions, and what is free in the queries
that it holds. -/
theorem FromItem.mem_freeRefs {item : FromItem} : name ∈ item.freeRefs
    ↔ (∃ e ∈ item.joinConditions, e.Refers name) ∨ ∃ sub ∈ item.listed, name ∈ sub.freeRefs := by
  induction item using FromItem.treeInduction with
  | table t => simp [freeRefs, joinConditions, listed]
  | subquery q => simp [freeRefs, joinConditions, listed]
  | join left right kind on ihLeft ihRight =>
    have parted (es es' : List Expr) (subs subs' : List Query) :
        ((∃ e ∈ es ++ es', e.Refers name) ∨ ∃ sub ∈ subs ++ subs', name ∈ sub.freeRefs)
          ↔ ((∃ e ∈ es, e.Refers name) ∨ ∃ sub ∈ subs, name ∈ sub.freeRefs)
            ∨ (∃ e ∈ es', e.Refers name) ∨ ∃ sub ∈ subs', name ∈ sub.freeRefs := by
      simp only [List.mem_append, or_and_right, exists_or]
      exact or_or_or_comm
    have inOn : name ∈ on.toList.flatMap Expr.freeRefs ↔ (∃ e ∈ on.toList, e.Refers name)
        ∨ ∃ sub ∈ (on.toList.flatMap Expr.slots).map Prod.snd, name ∈ sub.freeRefs := by
      simp only [List.mem_flatMap, Expr.mem_freeRefs, Expr.mem_qualifiers, Query.mem_slots]
      constructor
      · rintro ⟨e, own, refers | ⟨slot, inSlots, free⟩⟩
        · exact .inl ⟨e, own, refers⟩
        · exact .inr ⟨slot.2, ⟨e, own, slot, inSlots, rfl⟩, free⟩
      · rintro (⟨e, own, refers⟩ | ⟨_, ⟨e, own, slot, inSlots, rfl⟩, free⟩)
        · exact ⟨e, own, .inl refers⟩
        · exact ⟨e, own, .inr ⟨slot, inSlots, free⟩⟩
    rw [freeRefs_join, List.mem_append, List.mem_append, ihLeft, ihRight, inOn, joinConditions, listed,
      parted, parted]
  | placeholder ref => simp [freeRefs, joinConditions, listed]

namespace Query

variable {q level : Query}

/-- The free names of a level, from the queries that it holds. -/
theorem mem_freeRefs_iff_held : name ∈ q.freeRefs
    ↔ (q.Refers name ∨ ∃ sub ∈ q.held, name ∈ sub.freeRefs) ∧ name ∉ q.boundNames := by
  rw [mem_freeRefs]
  refine and_congr_left' ?_
  simp only [Expr.mem_freeRefs, Expr.mem_qualifiers, FromItem.mem_freeRefs, mem_held]
  constructor
  · rintro (⟨e, own, refers | ⟨slot, inSlots, free⟩⟩ | ⟨item, inList, ⟨e, own, refers⟩ | ⟨sub, listed, free⟩⟩)
    · exact .inl ⟨e, .inl own, refers⟩
    · exact .inr ⟨slot.2, .inr (mem_slotted.mpr ⟨e, own, slot, inSlots, rfl⟩), free⟩
    · exact .inl ⟨e, .inr (List.mem_flatMap.mpr ⟨item, inList, own⟩), refers⟩
    · exact .inr ⟨sub, .inl (List.mem_flatMap.mpr ⟨item, inList, listed⟩), free⟩
  · rintro (⟨e, own | condition, refers⟩ | ⟨sub, listed | slotted, free⟩)
    · exact .inl ⟨e, own, .inl refers⟩
    · obtain ⟨item, inList, inItem⟩ := List.mem_flatMap.mp condition
      exact .inr ⟨item, inList, .inl ⟨e, inItem, refers⟩⟩
    · obtain ⟨item, inList, inItem⟩ := List.mem_flatMap.mp listed
      exact .inr ⟨item, inList, .inr ⟨sub, inItem, free⟩⟩
    · obtain ⟨e, own, slot, inSlots, rfl⟩ := mem_slotted.mp slotted
      exact .inl ⟨e, own, .inr ⟨slot, inSlots, free⟩⟩

/-- The ends of paths are the levels of the query. -/
theorem mem_levels_iff_path : level ∈ q.levels ↔ ∃ path, q.Path path level := by
  constructor
  · intro member
    induction q using heldInduction with
    | level q ih =>
      rcases mem_levels.mp member with rfl | ⟨sub, place, below⟩
      · exact ⟨_, .here level⟩
      · obtain ⟨path, down⟩ := ih sub (mem_held.mpr place) below
        exact ⟨_, .down (mem_held.mpr place) down⟩
  · rintro ⟨path, passed⟩
    induction passed with
    | here q => exact q.self_mem_levels
    | down place _ ih => exact mem_levels.mpr (.inr ⟨_, mem_held.mp place, ih⟩)

/-- A reference dangles at the level itself or below it, and the level does not bind it. -/
theorem dangles_iff : q.Dangles name
    ↔ (q.Refers name ∨ ∃ sub ∈ q.held, sub.Dangles name) ∧ name ∉ q.boundNames := by
  constructor
  · rintro ⟨path, level, passed, refers, unbound⟩
    cases passed with
    | here => exact ⟨.inl refers, unbound q List.mem_cons_self⟩
    | down place below =>
      refine ⟨.inr ⟨_, place, _, level, below, refers, fun scope member => ?_⟩, unbound q List.mem_cons_self⟩
      exact unbound scope (List.mem_cons_of_mem _ member)
  · rintro ⟨refers | ⟨sub, place, path, level, below, refers, unbound⟩, here⟩
    · exact ⟨[q], q, .here q, refers, List.forall_mem_singleton.mpr here⟩
    · exact ⟨q :: path, level, .down place below, refers, List.forall_mem_cons.mpr ⟨here, unbound⟩⟩

theorem mem_freeRefs_iff_dangles : name ∈ q.freeRefs ↔ q.Dangles name := by
  induction q using heldInduction with
  | level q ih =>
    rw [mem_freeRefs_iff_held, dangles_iff]
    exact and_congr_left' (or_congr_right (exists_congr fun sub => and_congr_right (ih sub)))

/-- Past the first two checks, validation looks at the least free name alone. -/
theorem validate_of_checked (aggregate : q.isAggregate = true) (placed : q.checkPositions = .ok ()) :
    q.validate = q.freeNames.head?.elim (.ok ()) fun least => .error (.unboundReference least) := by
  unfold validate
  rw [aggregate, placed]
  cases q.freeNames <;> rfl

/-- The free names of a query are a set, and they are the names of its dangling references. A query
that passes the other checks is refused for the least of them, if there is one. -/
theorem freeNames_follow_scope (q : Query) :
    q.freeNames.Pairwise (· < ·) ∧ (∀ name, name ∈ q.freeNames ↔ q.Dangles name)
      ∧ (q.isAggregate = true → q.checkPositions = .ok () →
        ((∃ name, q.validate = .error (.unboundReference name)) ↔ ∃ name, q.Dangles name)
          ∧ (∀ name, q.validate = .error (.unboundReference name)
            ↔ q.Dangles name ∧ ∀ other, q.Dangles other → name ≤ other)
          ∧ (q.validate = .ok () ↔ ∀ name, ¬ q.Dangles name)) := by
  have free (name) : name ∈ q.freeNames ↔ q.Dangles name :=
    mem_ascending.trans mem_freeRefs_iff_dangles
  refine ⟨pairwise_ascending q.freeRefs, free, fun aggregate placed => ?_⟩
  have refused (name) : q.validate = .error (.unboundReference name) ↔ q.freeNames.head? = some name := by
    rw [validate_of_checked aggregate placed]
    cases q.freeNames.head? <;> simp
  have accepted : q.validate = .ok () ↔ q.freeNames.head? = none := by
    rw [validate_of_checked aggregate placed]
    cases q.freeNames.head? <;> simp
  refine ⟨?_, fun name => ?_, ?_⟩
  · simp only [refused, ← free, ← Option.isSome_iff_exists, List.isSome_head?, ne_eq,
      List.eq_nil_iff_forall_not_mem, not_forall, not_not]
  · simp only [refused, freeNames, head?_ascending_eq_some, mem_freeRefs_iff_dangles, not_lt]
  · simp only [accepted, ← free, List.head?_eq_none_iff, List.eq_nil_iff_forall_not_mem]

section Sample

/-- `SELECT r.id FROM shop.refunds AS r WHERE r.order = o.id AND d.start < m.start`. -/
def refundsOfOrder : Query :=
  ⟨[⟨.column (some "r") "id", none⟩], [.table ⟨"shop", "refunds", some "r"⟩],
    some ((Expr.binary .eq (.column (some "r") "order") (.column (some "o") "id")).and
      (.binary .lt (.column (some "d") "start") (.column (some "m") "start"))),
    [], none, [], none, none⟩

/-- An aggregate query whose filter holds a query that refers to three tables outside: the counted one,
which is bound, and two that are not. -/
def refundedOrders : Query :=
  ⟨[⟨.func "count" [.star none] false, some "n"⟩], [.table ⟨"shop", "orders", some "o"⟩],
    some (.existsSubquery refundsOfOrder false), [], none, [], none, none⟩

theorem refundedOrders_dangle : refundedOrders.isAggregate = true ∧ refundedOrders.checkPositions = .ok ()
    ∧ refundedOrders.validate = .error (.unboundReference "d")
    ∧ refundedOrders.Dangles "d" ∧ refundedOrders.Dangles "m" ∧ ¬ refundedOrders.Dangles "o" := by
  obtain ⟨_, free, checked⟩ := freeNames_follow_scope refundedOrders
  obtain ⟨_, least, _⟩ := checked rfl rfl
  have names : refundedOrders.freeNames = ["d", "m"] := by decide +kernel
  simp only [names, List.mem_cons, List.not_mem_nil, or_false] at free
  have first : refundedOrders.Dangles "d" := (free "d").mp (.inl rfl)
  refine ⟨rfl, rfl, (least "d").mpr ⟨first, fun other dangles => ?_⟩, first, (free "m").mp (.inr rfl),
    fun dangles => absurd ((free "o").mpr dangles) (by decide)⟩
  rcases (free other).mpr dangles with rfl | rfl
  · exact le_refl _
  · decide

end Sample

end Query

end ApproxQuery
