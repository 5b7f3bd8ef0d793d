import ApproxQuery.Proofs.Sql.Grammar
import ApproxQuery.Proofs.Sql.Rendering

/-! SQL text determines the query: what the text of a legible query shows is read back from it, one level
after the other. -/
namespace ApproxQuery

open Sql

/-- Behind its first word, the text of a query is taken for the query as shown. -/
def Query.ReadBack (d : Dialect) (q : Query) : Prop :=
  ∀ s, select d q = .ok s → ∃ body, s = "SELECT " ++ body ∧
    ∀ depth, s.length < depth → Takes (Reader.within d depth).2 body q.shown (Opens [")"])

def Expr.ReadBack (d : Dialect) (e : Expr) : Prop :=
  ∀ s, Sql.expr d e = .ok s → ∀ depth, s.length < depth → Operand (Reader.within d depth).1 s e.shown

/-- The words of the clauses behind a select list, and what ends a statement. -/
def Sql.clauseWords : List String :=
  [" FROM ", " WHERE ", " GROUP BY ", " HAVING ", " ORDER BY ", " LIMIT ", ")"]

/-- The words that may follow an item of a statement. -/
def Sql.itemEnds : List String := ", " :: clauseWords

def FromItem.ReadBack (d : Dialect) (item : FromItem) : Prop :=
  ∀ s, Sql.fromItem d item = .ok s → ∀ depth, s.length < depth →
    Takes (Reader.fromItem d (Reader.within d depth).2) s item.shown (Opens itemEnds)

variable {d : Dialect}

section Exprs

private theorem readBack_of_step {e : Expr} (step : ∀ s, Sql.expr d e = .ok s → ∀ depth, s.length ≤ depth →
    Operand (Reader.exprStep d (Reader.within d depth).1 (Reader.within d depth).2) s e.shown) :
    e.ReadBack d := by
  intro s text depth enough
  cases depth with
  | zero => exact absurd enough (Nat.not_lt_zero _)
  | succ depth => exact step s text depth (Nat.le_of_lt_succ enough)

/-- An expression is read back where the queries in its slots are. -/
theorem Expr.readBack {e : Expr} (legible : e.isLegible = true)
    (slots : ∀ slot ∈ e.slots, slot.2.ReadBack d) : e.ReadBack d := by
  revert legible slots
  refine ExprRule.expr (E := fun e => e.isLegible = true → (∀ slot ∈ e.slots, slot.2.ReadBack d) →
    e.ReadBack d) ?_ e
  -- What an expression holds has a shorter text, so the readers one level down suffice for it.
  constructor
  case column => exact fun table name _ _ => readBack_of_step fun s text _ _ => .column table name text
  case literal => exact fun value legible _ => readBack_of_step fun s text _ _ => .literal value legible text
  case star => exact fun table _ _ => readBack_of_step fun s text _ _ => .star table text
  case func =>
    intro name args distinct ih legible slots
    rw [isLegible, Bool.and_eq_true, areLegible_eq, List.all_eq_true] at legible
    refine readBack_of_step fun s text depth enough => ?_
    rw [Sql.expr, exprs_eq] at text
    obtain ⟨texts, rendered, ⟨⟩⟩ := bind_eq_ok.mp text
    have each : List.Forall₂ (Operand (Reader.within d depth).1) texts (args.map shown) := by
      refine forall₂_map shown (mapM_eq_ok.mp rendered) fun e own t among text => ?_
      refine ih e own (legible.2 e own) (fun slot member => slots slot ?_) t text depth ?_
      · rw [Expr.slots, slotsIn_eq]
        exact List.mem_flatMap_of_mem own member
      · have within := length_le_commas among
        have paren : ")".length = 1 := rfl
        simp only [String.length_append] at enough
        omega
    rw [shown_func]
    exact .func distinct legible.1 each
  case binary =>
    intro op left right ihLeft ihRight legible slots
    rw [isLegible, Bool.and_eq_true] at legible
    refine readBack_of_step fun s text depth enough => ?_
    rw [Sql.expr] at text
    simp only [bind_eq_ok] at text
    obtain ⟨s, textLeft, t, textRight, ⟨⟩⟩ := text
    have paren : ")".length = 1 := rfl
    simp only [String.length_append] at enough
    have slotsLeft (slot) (member : slot ∈ left.slots) := slots slot (List.mem_append_left _ member)
    have slotsRight (slot) (member : slot ∈ right.slots) := slots slot (List.mem_append_right _ member)
    exact .binary op (ihLeft legible.1 slotsLeft s textLeft depth (by omega))
      (ihRight legible.2 slotsRight t textRight depth (by omega))
  case not =>
    intro operand ih legible slots
    refine readBack_of_step fun s text depth enough => ?_
    obtain ⟨s, rendered, ⟨⟩⟩ := bind_eq_ok.mp text
    have paren : ")".length = 1 := rfl
    simp only [String.length_append] at enough
    exact .not (ih legible slots s rendered depth (by omega))
  case isNull =>
    intro operand negated ih legible slots
    refine readBack_of_step fun s text depth enough => ?_
    obtain ⟨s, rendered, ⟨⟩⟩ := bind_eq_ok.mp text
    have paren : "(".length = 1 := rfl
    simp only [String.length_append] at enough
    exact .isNull negated (ih legible slots s rendered depth (by omega))
  case subquery =>
    intro query _ slots
    refine readBack_of_step fun s text depth enough => ?_
    obtain ⟨s, rendered, ⟨⟩⟩ := bind_eq_ok.mp text
    obtain ⟨body, rfl, takes⟩ := slots _ List.mem_cons_self s rendered
    have paren : ")".length = 1 := rfl
    rw [String.length_append, String.length_append] at enough
    exact .subquery (takes depth (by omega))
  case inSubquery =>
    intro operand query negated ih legible slots
    refine readBack_of_step fun s text depth enough => ?_
    rw [Sql.expr] at text
    simp only [bind_eq_ok] at text
    obtain ⟨s, rendered, t, selected, ⟨⟩⟩ := text
    have slotsOperand (slot) (member : slot ∈ operand.slots) := slots slot (List.mem_append_left _ member)
    obtain ⟨body, rfl, takes⟩ := slots _ (List.mem_append_right _ List.mem_cons_self) t selected
    have paren : "(".length = 1 := rfl
    simp only [String.length_append] at enough takes
    exact .inSubquery negated (ih legible slotsOperand s rendered depth (by omega)) (takes depth (by omega))
  case existsSubquery =>
    intro query negated _ slots
    refine readBack_of_step fun s text depth enough => ?_
    obtain ⟨s, rendered, ⟨⟩⟩ := bind_eq_ok.mp text
    obtain ⟨body, rfl, takes⟩ := slots _ List.mem_cons_self s rendered
    have paren : "(".length = 1 := rfl
    simp only [String.length_append] at enough takes
    exact .existsSubquery negated (takes depth (by omega))

end Exprs

section Items

private theorem itemAlias (asName : Option String) :
    Phrase " AS " (do return some (← Reader.ident d)) none (aliased d asName) asName itemEnds :=
  aliasClause asName (by decide) (by decide) (by cases d <;> decide)

theorem FromItem.readBack {item : FromItem} (legible : item.isLegible = true)
    (listed : ∀ sub ∈ item.listed, sub.ReadBack d) : item.ReadBack d := by
  intro s text depth enough
  have stops : d.quoteChar ∉ heads (" AS " :: itemEnds) := by cases d <;> decide
  have point : d.quoteChar ∉ heads ["."] := by cases d <;> decide
  cases item with
  | table t =>
    cases text
    have clause : Phrase " AS " _ none (aliased d t.asName) t.asName itemEnds := itemAlias t.asName
    have named : Takes (do
        let table ← Reader.ident d
        return FromItem.table ⟨t.schema, table, ← Reader.optionalName d⟩) _ (.table t) (Opens itemEnds) :=
      (takes_ident t.table (by decide) stops).bind
        (clause.takes.bind_pure fun asName => FromItem.table ⟨t.schema, t.table, asName⟩) clause.opens
    rw [Sql.table, String.append_assoc, String.append_assoc]
    refine Takes.absent ?_ [String.singleton d.quoteChar] nofun ?_ fun rest _ => ?_
    · exact (takes_ident t.schema (by decide) point).bind (.behind "." named)
        fun rest _ => opens_append List.mem_cons_self _ rest
    · cases d <;> decide
    · rw [Dialect.ident, enclose_eq, String.append_assoc]
      exact opens_append List.mem_cons_self _ rest
  | subquery q =>
    obtain ⟨s, rendered, ⟨⟩⟩ := bind_eq_ok.mp text
    obtain ⟨body, rfl, takes⟩ := listed q List.mem_cons_self s rendered
    have clause : Phrase " AS " _ none (aliased d q.asName) q.asName itemEnds := itemAlias q.asName
    have deep : ("SELECT " ++ body).length < depth := by
      simp only [String.length_append] at enough ⊢
      omega
    have closed : Takes (Reader.statement (Reader.within d depth).2 ")") ("SELECT " ++ body ++ ")") q.shown
        (Opens (" AS " :: itemEnds)) := takes_statement (takes depth deep) (by decide)
    have split : "(" ++ ("SELECT " ++ body) ++ ")" ++ aliased d q.asName
        = "(" ++ ("SELECT " ++ body ++ ")" ++ aliased d q.asName) := by simp only [String.append_assoc]
    rw [split, shown_subquery]
    refine .present nofun ?_
    exact closed.bind (clause.takes.bind_pure fun asName => FromItem.subquery { q.shown with asName := asName })
      clause.opens
  | join left right kind on => exact absurd legible Bool.false_ne_true
  | placeholder ref => exact absurd legible Bool.false_ne_true

/-- As an item of a statement, an expression may be followed by a comma or by a clause. -/
private theorem takes_ended {e : Expr} (readBack : e.ReadBack d) {s : String} (text : Sql.expr d e = .ok s)
    {depth : Nat} (enough : s.length < depth) :
    Takes (Reader.within d depth).1 s e.shown (Opens itemEnds) :=
  (readBack s text depth enough).takes.mono fun _ opens => opens.mono (by decide)

theorem SelectItem.readBack {item : SelectItem} (readBack : item.expr.ReadBack d) {s : String}
    (text : selectItem d item = .ok s) {depth : Nat} (enough : s.length < depth) :
    Takes (Reader.selectItem d (Reader.within d depth).1) s { item with expr := item.expr.shown }
      (Opens itemEnds) := by
  obtain ⟨s, rendered, ⟨⟩⟩ := bind_eq_ok.mp text
  rw [String.length_append] at enough
  have operand := readBack s rendered depth (by omega)
  have clause : Phrase " AS " _ none (aliased d item.asName) item.asName itemEnds := itemAlias item.asName
  exact operand.takes.bind (clause.takes.bind_pure (SelectItem.mk item.expr.shown))
    fun rest follows => (clause.opens rest follows).mono (by decide)

theorem OrderItem.readBack {item : OrderItem} (readBack : item.expr.ReadBack d) {s : String}
    (text : orderItem d item = .ok s) {depth : Nat} (enough : s.length < depth) :
    Takes (Reader.orderItem (Reader.within d depth).1) s { item with expr := item.expr.shown }
      (Opens itemEnds) := by
  obtain ⟨s, rendered, ⟨⟩⟩ := bind_eq_ok.mp text
  rw [String.length_append] at enough
  have operand := readBack s rendered depth (by omega)
  have clause : Phrase " DESC" (pure true) false (if item.descending then " DESC" else "") item.descending
      itemEnds := by
    cases item.descending with
    | false => exact .leftOut nofun (by decide)
    | true => exact .stands nofun (s := "") (.pure true)
  exact operand.takes.bind (clause.takes.bind_pure (OrderItem.mk item.expr.shown))
    fun rest follows => (clause.opens rest follows).mono (by decide)

end Items

section Levels

variable {α : Type} {read : Reader α} {w s : String} {words texts : List String} {values : List α}

/-- The texts of items are taken one by one. -/
private def Taken (read : Reader α) (texts : List String) (values : List α) : Prop :=
  List.Forall₂ (fun s a => Takes read s a (Opens itemEnds)) texts values

/-- The items of a clause are separated by what opens none of the later clauses. -/
private theorem itemsTaken (apart : ∀ v ∈ words, Apart v ", ") (ends : ", " :: words ⊆ itemEnds)
    (each : Taken read texts values) (some : texts ≠ []) :
    Takes (Reader.separated read) (commas texts) values (Opens words) :=
  .separated apart some (List.Forall₂.imp (fun _ _ takes => takes.mono fun _ opens => opens.subset ends) each)

private theorem listClause (filled : w ≠ "") (apart : ∀ v ∈ words, Apart v w ∧ Apart v ", ")
    (ends : ", " :: words ⊆ itemEnds) (each : Taken read texts values) :
    Phrase w (Reader.separated read) [] (select.clause w texts) values words := by
  cases each with
  | nil => exact .leftOut filled fun v own => (apart v own).1
  | cons first later =>
    exact .stands filled (itemsTaken (fun v own => (apart v own).2) ends (.cons first later) nofun)

private theorem conditionClause {e : Option Expr} {expr : Reader Expr} (filled : w ≠ "")
    (apart : ∀ v ∈ words, Apart v w) (ends : words ⊆ itemEnds) (text : condition d w e = .ok s)
    (each : ∀ own ∈ e, ∀ t, Sql.expr d own = .ok t → t.length ≤ s.length →
      Takes expr t own.shown (Opens itemEnds)) :
    Phrase w (do return some (← expr)) none s (e.map Expr.shown) words := by
  cases e with
  | none =>
    cases text
    exact .leftOut filled apart
  | some own =>
    obtain ⟨t, rendered, ⟨⟩⟩ := bind_eq_ok.mp text
    have within : t.length ≤ (w ++ t).length := by
      rw [String.length_append]
      exact Nat.le_add_left _ _
    have takes : Takes expr t own.shown (Opens words) :=
      (each own rfl t rendered within).mono fun _ opens => opens.subset ends
    exact .stands filled (takes.bind_pure some)

private theorem limitClause (limit : Option UInt64) :
    Phrase " LIMIT " (do return some (UInt64.ofNat (← Reader.number))) none (limitText limit) limit [")"] := by
  cases limit with
  | none => exact .leftOut nofun (by decide)
  | some n =>
    have digits : Takes Reader.number (Decimal.digitText n.toNat) n.toNat (Opens [")"]) :=
      takes_number n.toNat (by decide) (by decide)
    have takes := digits.bind_pure fun k => some (UInt64.ofNat k)
    rw [UInt64.ofNat_toNat] at takes
    exact .stands nofun takes

/-- A level is read back where its expressions and its from-list are. -/
private theorem takes_level {q : Query} {parts : Parts} (rendered : parts.Of d q) {depth : Nat}
    (below : parts.Below depth) (exprs : ∀ e ∈ q.exprs, e.ReadBack d)
    (items : ∀ item ∈ q.fromList, item.ReadBack d) :
    Takes (Reader.queryStep d (Reader.within d depth).1 (Reader.within d depth).2) (parts.body q.limit)
      q.shown (Opens [")"]) := by
  obtain ⟨selected, filtered, grouped, had, sorted⟩ := Query.forall_mem_exprs.mp exprs
  rw [Query.shown_eq]
  have outputs : Taken (Reader.selectItem d (Reader.within d depth).1) parts.outputs
      (q.mapParts FromItem.shown Expr.shown).selectList :=
    forall₂_map _ rendered.outputs fun item own s among text =>
      SelectItem.readBack (selected item own) text (below.outputs s among)
  have sources : Taken (Reader.fromItem d (Reader.within d depth).2) parts.sources
      (q.mapParts FromItem.shown Expr.shown).fromList :=
    forall₂_map _ rendered.sources fun item own s among text =>
      items item own s text depth (below.sources s among)
  have groups : Taken (Reader.within d depth).1 parts.groups (q.mapParts FromItem.shown Expr.shown).groupBy :=
    forall₂_map _ rendered.groups fun e own s among text =>
      takes_ended (grouped e own) text (below.groups s among)
  have keys : Taken (Reader.orderItem (Reader.within d depth).1) parts.keys
      (q.mapParts FromItem.shown Expr.shown).orderBy :=
    forall₂_map _ rendered.keys fun item own s among text =>
      OrderItem.readBack (sorted item own) text (below.keys s among)
  have tail : Tail (Reader.clauses d (Reader.within d depth).1 (Reader.within d depth).2
      (q.mapParts FromItem.shown Expr.shown).selectList) (parts.clauses q.limit)
      { q.mapParts FromItem.shown Expr.shown with asName := none } clauseWords [")"] := by
    -- A clause ends at the word of whichever later clause is there.
    refine Phrase.tail (listClause nofun (by decide) (by decide) sources) ?_
    refine Phrase.tail (conditionClause nofun (by decide) (by decide) rendered.filter fun e own s text short =>
      takes_ended (filtered e own) text (Nat.lt_of_le_of_lt short below.filter)) ?_
    refine Phrase.tail (listClause nofun (by decide) (by decide) groups) ?_
    refine Phrase.tail (conditionClause nofun (by decide) (by decide) rendered.having fun e own s text short =>
      takes_ended (had e own) text (Nat.lt_of_le_of_lt short below.having)) ?_
    refine Phrase.tail (listClause nofun (by decide) (by decide) keys) ?_
    exact (limitClause q.limit).last fun limit =>
      { q.mapParts FromItem.shown Expr.shown with limit := limit, asName := none }
  have some : parts.outputs ≠ [] := rendered.some
  exact (itemsTaken (by decide) (by decide) outputs some).bind tail.takes tail.opens

theorem Query.readBack {q : Query} (legible : q.isLegible = true) : q.ReadBack d := by
  induction q using nestedInduction with
  | level q listed slotted =>
    obtain ⟨items, exprs⟩ := isLegible_iff.mp legible q q.self_mem_levels
    have exprsBack (e) (own : e ∈ q.exprs) : e.ReadBack d := by
      refine Expr.readBack (exprs e own) fun slot member => ?_
      have held : slot.2 ∈ q.slotted := mem_slotted.mpr ⟨e, own, slot, member, rfl⟩
      exact slotted slot.2 held (isLegible_below legible (.inr held))
    have itemsBack (item) (own : item ∈ q.fromList) : item.ReadBack d := by
      refine FromItem.readBack (items item own) fun sub member => ?_
      have held : sub ∈ q.listed := List.mem_flatMap_of_mem own member
      exact listed sub held (isLegible_below legible (.inl held))
    intro s text
    obtain ⟨parts, rendered, rfl⟩ := select_eq_ok text
    refine ⟨parts.body q.limit, rfl, fun depth enough => ?_⟩
    rw [String.length_append] at enough
    cases depth with
    | zero => exact absurd enough (Nat.not_lt_zero _)
    | succ depth =>
      have within : (parts.body q.limit).length < depth := by
        have word : "SELECT ".length = 7 := rfl
        omega
      exact takes_level rendered (Parts.below within) exprsBack itemsBack

end Levels

/-- The reader recovers from the text of a legible query all that the text shows. -/
theorem Sql.read_select {q : Query} {s : String} (legible : q.isLegible = true) (text : select d q = .ok s) :
    read d s = some q.shown := by
  obtain ⟨body, rfl, takes⟩ := Query.readBack legible s text
  have whole : Takes (do
      Reader.word "SELECT "
      (Reader.within d (("SELECT " ++ body).length + 1)).2) ("SELECT " ++ body) q.shown (Opens [")"]) :=
    .behind _ (takes _ (Nat.lt_succ_self _))
  have taken := whole [] (.inl rfl)
  rw [List.append_nil] at taken
  rw [read, taken]

/-- Legible queries with the same text differ at most in the ASCII case of function names and in the aliases
of queries that are not derived tables. -/
theorem Sql.shown_eq_of_select_eq {q r : Query} {s : String} (legible : q.isLegible = true)
    (legible' : r.isLegible = true) (text : select d q = .ok s) (text' : select d r = .ok s) :
    q.shown = r.shown := by
  have first : read d s = some q.shown := read_select legible text
  have second : read d s = some r.shown := read_select legible' text'
  exact Option.some.inj (first.symm.trans second)

section Sample

/-- A level with quotes in its names and in the string of a sub-query. The call and the alias of the
sub-query are spelled as given. -/
def Query.quoting (call : String) (asName : Option String) : Query :=
  let inner : Query := ⟨[⟨.literal (.str "it's"), none⟩], [], none, [], none, [], none, asName⟩
  ⟨[⟨.func call [.column (some "t") "a`b"] true, some "`c"⟩], [.table ⟨"s", "t", none⟩],
    some (.not (.existsSubquery inner true)), [], none, [], none, none⟩

/-- Neither spelling can be told from the text. -/
theorem Sql.quoting_shown_eq : ∃ s, select .hive (.quoting "SUM" none) = .ok s
    ∧ select .hive (.quoting "Sum" (some "u")) = .ok s
    ∧ (Query.quoting "SUM" none).isLegible = true ∧ (Query.quoting "Sum" (some "u")).isLegible = true
    ∧ (Query.quoting "SUM" none).shown = (Query.quoting "Sum" (some "u")).shown := by
  have text : select .hive (.quoting "SUM" none) = .ok
      "SELECT sum(DISTINCT `t`.`a``b`) AS ```c` FROM `s`.`t` WHERE (NOT (NOT EXISTS (SELECT 'it''s')))" := rfl
  have same : select .hive (.quoting "Sum" (some "u")) = select .hive (.quoting "SUM" none) := rfl
  exact ⟨_, text, same.trans text, rfl, rfl, shown_eq_of_select_eq rfl rfl text (same.trans text)⟩

end Sample

end ApproxQuery
