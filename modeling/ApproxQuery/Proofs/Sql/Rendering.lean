import ApproxQuery.Proofs.Answers
import ApproxQuery.Proofs.Sql.Reader

/-! What has been rendered when a text comes out: every part of a query, and the clauses one after the
other. -/
namespace ApproxQuery.Sql

theorem forall₂_map {α β γ : Type} {R : α → β → Prop} {S : β → γ → Prop} {as : List α} {bs : List β}
    (f : α → γ) (related : List.Forall₂ R as bs) (each : ∀ a ∈ as, ∀ b ∈ bs, R a b → S b (f a)) :
    List.Forall₂ S bs (as.map f) := by
  induction related with
  | nil => exact .nil
  | cons first _ ih =>
    refine .cons (each _ List.mem_cons_self _ List.mem_cons_self first) (ih fun a own b among => ?_)
    exact each a (List.mem_cons_of_mem _ own) b (List.mem_cons_of_mem _ among)

theorem forall_of_forall₂ {α β : Type} {R : α → β → Prop} {P : β → Prop} {as : List α} {bs : List β}
    (related : List.Forall₂ R as bs) (each : ∀ a ∈ as, ∀ b, R a b → P b) : ∀ b ∈ bs, P b := by
  induction related with
  | nil => exact fun _ own => nomatch own
  | cons first _ ih =>
    refine List.forall_mem_cons.mpr ⟨each _ List.mem_cons_self _ first, ih fun a own => ?_⟩
    exact each a (List.mem_cons_of_mem _ own)

variable {d : Dialect}

/-- The text of an output column. -/
def selectItem (d : Dialect) (item : SelectItem) : Except SqlError String := do
  return (← expr d item.expr) ++ aliased d item.asName

/-- The text of a sort key. -/
def orderItem (d : Dialect) (item : OrderItem) : Except SqlError String := do
  return (← expr d item.expr) ++ if item.descending then " DESC" else ""

/-- The text of a clause with one expression. -/
def condition (d : Dialect) (words : String) : Option Expr → Except SqlError String
  | some e => do return words ++ (← expr d e)
  | none => .ok ""

theorem exprs_eq (es : List Expr) : exprs d es = es.mapM (expr d) := by
  induction es with
  | nil => rfl
  | cons e rest ih => rw [exprs, List.mapM_cons, ih]

theorem fromItems_eq (items : List FromItem) : fromItems d items = items.mapM (fromItem d) := by
  induction items with
  | nil => rfl
  | cons item rest ih => rw [fromItems, List.mapM_cons, ih]

theorem selectItems_eq (items : List SelectItem) : selectItems d items = items.mapM (selectItem d) := by
  induction items with
  | nil => rfl
  | cons item rest ih =>
    rcases item with ⟨e, asName⟩
    rw [selectItems, List.mapM_cons, ih, selectItem, bind_assoc]
    rfl

theorem orderItems_eq (items : List OrderItem) : orderItems d items = items.mapM (orderItem d) := by
  induction items with
  | nil => rfl
  | cons item rest ih =>
    rcases item with ⟨e, descending⟩
    rw [orderItems, List.mapM_cons, ih, orderItem, bind_assoc]
    rfl

/-- A join is written without parentheses. -/
theorem fromItem_join (left right : FromItem) (kind : JoinKind) (on : Option Expr) :
    fromItem d (.join left right kind on) = (do
      let left ← fromItem d left
      let right ← fromItem d right
      let on ← condition d " ON " on
      return left ++ joinWords kind ++ right ++ on) := by
  rw [fromItem.eq_def]
  cases on <;> rfl

/-- The texts of the parts of a statement. -/
structure Parts where
  outputs : List String
  sources : List String
  filter : String
  groups : List String
  having : String
  keys : List String

/-- The parts are rendered one by one, and there is some output. -/
structure Parts.Of (d : Dialect) (q : Query) (parts : Parts) : Prop where
  some : parts.outputs ≠ []
  outputs : List.Forall₂ (fun item s => selectItem d item = .ok s) q.selectList parts.outputs
  sources : List.Forall₂ (fun item s => fromItem d item = .ok s) q.fromList parts.sources
  filter : condition d " WHERE " q.filter = .ok parts.filter
  groups : List.Forall₂ (fun e s => expr d e = .ok s) q.groupBy parts.groups
  having : condition d " HAVING " q.having = .ok parts.having
  keys : List.Forall₂ (fun item s => orderItem d item = .ok s) q.orderBy parts.keys

def limitText : Option UInt64 → String
  | some n => " LIMIT " ++ Decimal.digitText n.toNat
  | none => ""

/-- What stands behind the select list. -/
def Parts.clauses (parts : Parts) (limit : Option UInt64) : String :=
  select.clause " FROM " parts.sources ++ (parts.filter ++ (select.clause " GROUP BY " parts.groups
    ++ (parts.having ++ (select.clause " ORDER BY " parts.keys ++ limitText limit))))

/-- What stands behind the first word of a statement. -/
def Parts.body (parts : Parts) (limit : Option UInt64) : String :=
  commas parts.outputs ++ parts.clauses limit

/-- Every part is shorter than a bound. -/
structure Parts.Below (parts : Parts) (bound : Nat) : Prop where
  outputs : ∀ s ∈ parts.outputs, s.length < bound
  sources : ∀ s ∈ parts.sources, s.length < bound
  filter : parts.filter.length < bound
  groups : ∀ s ∈ parts.groups, s.length < bound
  having : parts.having.length < bound
  keys : ∀ s ∈ parts.keys, s.length < bound

theorem Parts.below {parts : Parts} {limit : Option UInt64} {bound : Nat}
    (enough : (parts.body limit).length < bound) : parts.Below bound := by
  have item (w : String) {s : String} {texts : List String} (among : s ∈ texts) :
      s.length ≤ (select.clause w texts).length := by
    have listed := length_le_commas among
    cases texts with
    | nil => cases among
    | cons first rest =>
      rw [select.clause, String.length_append]
      · exact listed.trans (Nat.le_add_left _ _)
      · exact nofun
  simp only [body, clauses, String.length_append] at enough
  constructor
  case outputs =>
    intro s among
    have within := length_le_commas among
    omega
  case sources =>
    intro s among
    have within := item " FROM " among
    omega
  case filter => omega
  case groups =>
    intro s among
    have within := item " GROUP BY " among
    omega
  case having => omega
  case keys =>
    intro s among
    have within := item " ORDER BY " among
    omega

/-- A query with some output is rendered clause by clause. -/
theorem select_eq (d : Dialect) {q : Query} (some : q.selectList ≠ []) : select d q = (do
    let outputs ← q.selectList.mapM (selectItem d)
    let sources ← q.fromList.mapM (fromItem d)
    let filter ← condition d " WHERE " q.filter
    let groups ← q.groupBy.mapM (expr d)
    let having ← condition d " HAVING " q.having
    let keys ← q.orderBy.mapM (orderItem d)
    return "SELECT " ++ commas outputs ++ select.clause " FROM " sources ++ filter
      ++ select.clause " GROUP BY " groups ++ having ++ select.clause " ORDER BY " keys
      ++ limitText q.limit) := by
  rcases q with ⟨selectList, sources, filter, groupBy, having, orderBy, limit, asName⟩
  cases selectList with
  | nil => exact absurd rfl some
  | cons first items =>
    rw [← exprs_eq, ← fromItems_eq, ← selectItems_eq, ← orderItems_eq, select.eq_def]
    cases filter <;> cases having <;> rfl

theorem select_of_empty (d : Dialect) {q : Query} (none : q.selectList = []) :
    select d q = .error .emptySelectList := by
  rcases q with ⟨selectList, sources, filter, groupBy, having, orderBy, limit, asName⟩
  cases none
  rw [select.eq_def]

theorem select_eq_ok {q : Query} {s : String} (text : select d q = .ok s) :
    ∃ parts : Parts, parts.Of d q ∧ s = "SELECT " ++ parts.body q.limit := by
  by_cases some : q.selectList = []
  · rw [select_of_empty d some] at text
    cases text
  · rw [select_eq d some] at text
    simp only [bind_eq_ok] at text
    obtain ⟨outputs, output, sources, source, filter, filtered, groups, group, having, had, keys, key, ⟨⟩⟩ :=
      text
    have outputs' := mapM_eq_ok.mp output
    refine ⟨⟨outputs, sources, filter, groups, having, keys⟩, ?_, ?_⟩
    · constructor
      case some =>
        rintro rfl
        exact some (List.forall₂_nil_right_iff.mp outputs')
      case outputs => exact outputs'
      case sources => exact mapM_eq_ok.mp source
      case filter => exact filtered
      case groups => exact mapM_eq_ok.mp group
      case having => exact had
      case keys => exact mapM_eq_ok.mp key
    · simp only [Parts.body, Parts.clauses, String.append_assoc]

end ApproxQuery.Sql
