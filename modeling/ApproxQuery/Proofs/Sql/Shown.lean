import ApproxQuery.Proofs.Query.Levels

/-! What the text of a query shows: all but the ASCII case of function names, its own alias, and the
aliases of queries in slots. It shows all of that where the query is legible. -/
namespace ApproxQuery

mutual

/-- Function names in lower case; queries in slots are not entered. -/
def Expr.lowered : Expr → Expr
  | .func name args distinct => .func (lowerAscii name) (Expr.loweredIn args) distinct
  | .binary op left right => .binary op left.lowered right.lowered
  | .not operand => .not operand.lowered
  | .isNull operand negated => .isNull operand.lowered negated
  | .inSubquery operand query negated => .inSubquery operand.lowered query negated
  | .column table name => .column table name
  | .literal value => .literal value
  | .star table => .star table
  | .subquery query => .subquery query
  | .existsSubquery query negated => .existsSubquery query negated

def Expr.loweredIn : List Expr → List Expr
  | [] => []
  | e :: rest => e.lowered :: Expr.loweredIn rest

end

/-- A level with its function names in lower case, and without the aliases of queries in its slots. -/
def Query.lowered (q : Query) : Query :=
  q.mapParts (fun item => item) fun e => (e.mapSlots fun sub => { sub with asName := none }).lowered

/-- A query as its text shows it. -/
def Query.shown (q : Query) : Query := { q.mapLevels (fun _ level => level.lowered) with asName := none }

/-- A from-list item likewise. Derived tables keep their aliases. -/
def FromItem.shown (item : FromItem) : FromItem := item.mapLevels fun _ level => level.lowered

/-- An expression likewise. -/
def Expr.shown (e : Expr) : Expr := (e.mapSlots Query.shown).lowered

section Shown

theorem Expr.loweredIn_eq (es : List Expr) : loweredIn es = es.map lowered := by
  induction es with
  | nil => rfl
  | cons e rest ih => rw [loweredIn, ih, List.map_cons]

@[simp] theorem Expr.shown_func (name : String) (args : List Expr) (distinct : Bool) :
    (Expr.func name args distinct).shown = .func (lowerAscii name) (args.map shown) distinct := by
  rw [shown, mapSlots_func, lowered, loweredIn_eq, List.map_map]
  rfl

@[simp] theorem FromItem.shown_table (t : BaseTable) : (FromItem.table t).shown = .table t := rfl

@[simp] theorem FromItem.shown_subquery (q : Query) :
    (FromItem.subquery q).shown = .subquery { q.shown with asName := q.asName } := by
  have named : (q.mapLevels fun _ level => level.lowered).asName = q.asName := by
    rw [Query.mapLevels_eq]
    rfl
  have whole (r : Query) : r = { ({ r with asName := none } : Query) with asName := r.asName } := by
    cases r
    rfl
  rw [shown, mapLevels_subquery, Query.shown, ← named]
  exact congrArg subquery (whole _)

theorem Query.shown_eq (q : Query) :
    q.shown = { q.mapParts FromItem.shown Expr.shown with asName := none } := by
  have slots (e : Expr) : ((e.mapSlots (mapLevels fun _ level => level.lowered)).mapSlots fun sub =>
      { sub with asName := none }) = e.mapSlots shown := Expr.mapSlots_mapSlots _ _ e
  rw [shown, mapLevels_eq, lowered, mapParts_mapParts]
  simp only [slots]
  rfl

end Shown

/-- The characters of words: ASCII letters, digits and the underscore. -/
def Sql.isWordChar (c : Char) : Bool := c.isAlphanum || c = '_'

def Sql.isWord (s : String) : Bool := !s.isEmpty && s.toList.all isWordChar

mutual

/-- There is no float literal, and functions are named by words; queries in slots are not entered. -/
def Expr.isLegible : Expr → Bool
  | .literal (.float _) => false
  | .func name args _ => Sql.isWord name && Expr.areLegible args
  | .binary _ left right => left.isLegible && right.isLegible
  | .not operand => operand.isLegible
  | .isNull operand _ => operand.isLegible
  | .inSubquery operand _ _ => operand.isLegible
  | _ => true

def Expr.areLegible : List Expr → Bool
  | [] => true
  | e :: rest => e.isLegible && Expr.areLegible rest

end

/-- There is neither a join nor a placeholder. -/
def FromItem.isLegible : FromItem → Bool
  | .table _ => true
  | .subquery _ => true
  | .join _ _ _ _ => false
  | .placeholder _ => false

/-- At every level the from-list and the expressions are legible. -/
def Query.isLegible (q : Query) : Bool :=
  q.levels.all fun level => level.fromList.all FromItem.isLegible && level.exprs.all Expr.isLegible

section Legible

variable {q sub : Query}

theorem Expr.areLegible_eq (es : List Expr) : areLegible es = es.all isLegible := by
  induction es with
  | nil => rfl
  | cons e rest ih => rw [areLegible, ih, List.all_cons]

theorem Query.isLegible_iff : q.isLegible = true ↔ ∀ level ∈ q.levels,
    (∀ item ∈ level.fromList, item.isLegible = true) ∧ ∀ e ∈ level.exprs, e.isLegible = true := by
  simp [isLegible]

theorem Query.isLegible_below (legible : q.isLegible = true) (held : sub ∈ q.listed ∨ sub ∈ q.slotted) :
    sub.isLegible = true :=
  isLegible_iff.mpr fun level below => isLegible_iff.mp legible level (mem_levels.mpr (.inr ⟨sub, held, below⟩))

end Legible

end ApproxQuery
