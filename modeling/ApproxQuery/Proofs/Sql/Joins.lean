import ApproxQuery.Proofs.Sql.Delimiting

/-! The text of a join tree is the first table and then, from left to right, each further table behind the
words of its join and each condition behind `ON`. That sequence is read back from the text. -/
namespace ApproxQuery

/-- Joins of stored tables. A CROSS join has no condition, and every other join has one. -/
inductive FromItem.IsJoinTree : FromItem → Prop where
  | table (t : BaseTable) : IsJoinTree (.table t)
  | cross {a b : FromItem} (left : IsJoinTree a) (right : IsJoinTree b) : IsJoinTree (.join a b .cross none)
  | conditioned {a b : FromItem} {kind : JoinKind} (outer : kind ≠ .cross) (left : IsJoinTree a)
      (right : IsJoinTree b) (e : Expr) : IsJoinTree (.join a b kind (some e))

/-- What stands behind the first table: a further table and how it is joined, or the condition of a join. -/
inductive JoinStep where
  | table (kind : JoinKind) (table : BaseTable)
  | on (condition : Expr)

/-- The first table of a join tree, and the steps behind it from left to right. -/
inductive FromItem.LaidOut : FromItem → BaseTable → List JoinStep → Prop where
  | table (t : BaseTable) : LaidOut (.table t) t []
  | cross {a b : FromItem} {t u : BaseTable} {before behind : List JoinStep} (left : LaidOut a t before)
      (right : LaidOut b u behind) : LaidOut (.join a b .cross none) t (before ++ .table .cross u :: behind)
  | conditioned {a b : FromItem} {t u : BaseTable} {before behind : List JoinStep} {kind : JoinKind}
      (outer : kind ≠ .cross) (left : LaidOut a t before) (right : LaidOut b u behind) (e : Expr) :
      LaidOut (.join a b kind (some e)) t (before ++ .table kind u :: (behind ++ [.on e]))

theorem FromItem.IsJoinTree.laidOut {item : FromItem} (tree : item.IsJoinTree) :
    ∃ t steps, item.LaidOut t steps := by
  induction tree with
  | table t => exact ⟨t, [], .table t⟩
  | cross _ _ ihLeft ihRight =>
    obtain ⟨t, before, left⟩ := ihLeft
    obtain ⟨u, behind, right⟩ := ihRight
    exact ⟨t, _, .cross left right⟩
  | conditioned outer _ _ e ihLeft ihRight =>
    obtain ⟨t, before, left⟩ := ihLeft
    obtain ⟨u, behind, right⟩ := ihRight
    exact ⟨t, _, .conditioned outer left right e⟩

namespace Sql

/-- A step as its text shows it. -/
inductive JoinToken where
  | table (kind : JoinKind) (table : BaseTable)
  | on (condition : String)

variable {d : Dialect}

def baseTable (d : Dialect) (t : BaseTable) : String := table d t.name ++ aliased d t.asName

def JoinToken.text (d : Dialect) : JoinToken → String
  | table kind t => joinWords kind ++ baseTable d t
  | on condition => " ON " ++ condition

def joinTexts (d : Dialect) : List JoinToken → String
  | [] => ""
  | token :: rest => token.text d ++ joinTexts d rest

/-- The text of a condition is shown, and its end is found. -/
inductive Shows (d : Dialect) : JoinStep → JoinToken → Prop where
  | table (kind : JoinKind) (t : BaseTable) : Shows d (.table kind t) (.table kind t)
  | on {e : Expr} {s : String} (text : expr d e = .ok s) (ends : Moves d 0 0 s) : Shows d (.on e) (.on s)

section Laying

theorem joinTexts_append (tokens more : List JoinToken) :
    joinTexts d (tokens ++ more) = joinTexts d tokens ++ joinTexts d more := by
  induction tokens with
  | nil => exact String.empty_append.symm
  | cons token rest ih => rw [List.cons_append, joinTexts, joinTexts, ih, String.append_assoc]

/-- A join tree is rendered in the order in which it is laid out. -/
theorem fromItem_laidOut {item : FromItem} {t : BaseTable} {steps : List JoinStep}
    (laid : item.LaidOut t steps) (conditions : ∀ e ∈ item.joinConditions, e.Delimits d) {s : String}
    (text : fromItem d item = .ok s) :
    ∃ tokens, List.Forall₂ (Shows d) steps tokens ∧ s = baseTable d t ++ joinTexts d tokens := by
  induction laid generalizing s with
  | table t =>
    cases text
    exact ⟨[], .nil, String.append_empty.symm⟩
  | cross _ _ ihLeft ihRight =>
    simp only [FromItem.joinConditions, List.forall_mem_append] at conditions
    rw [fromItem_join] at text
    simp only [bind_eq_ok] at text
    obtain ⟨s, textLeft, r, textRight, _, ⟨⟩, ⟨⟩⟩ := text
    obtain ⟨tokens, shown, rfl⟩ := ihLeft conditions.1.1 textLeft
    obtain ⟨more, shownMore, rfl⟩ := ihRight conditions.1.2 textRight
    refine ⟨_, List.rel_append shown (.cons (.table _ _) shownMore), ?_⟩
    simp only [joinTexts_append, joinTexts, JoinToken.text, String.append_assoc, String.append_empty]
  | conditioned _ _ _ e ihLeft ihRight =>
    simp only [FromItem.joinConditions, List.forall_mem_append] at conditions
    rw [fromItem_join] at text
    simp only [bind_eq_ok] at text
    obtain ⟨s, textLeft, r, textRight, _, clause, ⟨⟩⟩ := text
    obtain ⟨c, rendered, ⟨⟩⟩ := bind_eq_ok.mp clause
    obtain ⟨tokens, shown, rfl⟩ := ihLeft conditions.1.1 textLeft
    obtain ⟨more, shownMore, rfl⟩ := ihRight conditions.1.2 textRight
    have condition : Shows d (.on e) (.on c) := .on rendered (conditions.2 e (by simp) c rendered)
    refine ⟨_, List.rel_append shown (.cons (.table _ _) (List.rel_append shownMore (.cons condition .nil))), ?_⟩
    simp only [joinTexts_append, joinTexts, JoinToken.text, String.append_assoc, String.append_empty]

end Laying

namespace Reader

def baseTable (d : Dialect) : Reader BaseTable := do
  let schema ← ident d
  word "."
  let table ← ident d
  return ⟨schema, table, ← optionalName d⟩

/-- The text up to where a condition ends. -/
def conditionText (d : Dialect) : Reader String := fun text =>
  let (own, left) := span d (.plain 0) text
  some (String.ofList own, left)

def joinKinds : List JoinKind := [.inner, .left, .right, .full, .cross]

/-- So many steps, or fewer at the end of the text. -/
def joinTokens (d : Dialect) : Nat → Reader (List JoinToken)
  | 0 => pure []
  | count + 1 => choose (pure [])
      ((" ON ", do
        let own ← conditionText d
        return .on own :: (← joinTokens d count))
      :: joinKinds.map fun kind => (joinWords kind, do
        let t ← baseTable d
        return .table kind t :: (← joinTokens d count)))

end Reader

section Reading

open Reader

/-- The words that may follow a table or a condition. -/
def joinEnds : List String := " ON " :: joinKinds.map joinWords

theorem takes_baseTable (t : BaseTable) :
    Takes (Reader.baseTable d) (baseTable d t) t (Opens joinEnds) := by
  have point : d.quoteChar ∉ heads ["."] := by cases d <;> decide
  have stops : d.quoteChar ∉ heads (" AS " :: joinEnds) := by cases d <;> decide
  have clause : Phrase " AS " _ none (aliased d t.asName) t.asName joinEnds :=
    aliasClause t.asName (by decide) (by decide) (by cases d <;> decide)
  have named : Takes (do
      let table ← ident d
      return BaseTable.mk t.schema table (← optionalName d)) _ t (Opens joinEnds) :=
    (takes_ident t.table (by decide) stops).bind (clause.takes.bind_pure (BaseTable.mk t.schema t.table))
      clause.opens
  rw [baseTable, Sql.table, String.append_assoc, String.append_assoc]
  exact (takes_ident t.schema (by decide) point).bind (.behind "." named)
    fun rest _ => opens_append List.mem_cons_self _ rest

theorem takes_condition {s : String} (ends : Moves d 0 0 s) :
    Takes (conditionText d) s s (Opens joinEnds) := by
  intro rest opens
  have stops : span d (.plain 0) rest = ([], rest) := by
    rcases opens with rfl | ⟨w, member, tail, rfl⟩
    · rfl
    · simp only [joinEnds, joinKinds, List.map_cons, List.map_nil, List.mem_cons, List.not_mem_nil, or_false]
        at member
      rcases member with rfl | rfl | rfl | rfl | rfl | rfl <;> rfl
  have passes := ends 0 rest
  rw [Nat.add_zero, stops] at passes
  rw [conditionText, passes]
  simp

/-- Every condition ends where the scan does. -/
def JoinToken.Ends (d : Dialect) : JoinToken → Prop
  | table _ _ => True
  | on s => Moves d 0 0 s

theorem Shows.ends {step : JoinStep} {token : JoinToken} (shows' : Shows d step token) : token.Ends d := by
  cases shows' with
  | table => trivial
  | on _ ends => exact ends

theorem opens_joinTexts (tokens : List JoinToken) {rest : List Char} (follows : Opens [] rest) :
    Opens joinEnds ((joinTexts d tokens).toList ++ rest) := by
  cases tokens with
  | nil => exact follows.subset (List.nil_subset _)
  | cons token more =>
    have own : ∃ w ∈ joinEnds, ∃ s, token.text d = w ++ s := by
      cases token with
      | table kind t => exact ⟨joinWords kind, by cases kind <;> decide, _, rfl⟩
      | on s => exact ⟨" ON ", List.mem_cons_self, s, rfl⟩
    obtain ⟨w, member, s, same⟩ := own
    rw [joinTexts, same, String.append_assoc]
    exact opens_append member _ rest

/-- A table or a condition is taken where its token stands. -/
private theorem takes_token {token : JoinToken} (ends : token.Ends d) (count : Nat) {s : String} {tokens : List JoinToken}
    (later : Takes (joinTokens d count) s tokens (Opens []))
    (opens : ∀ rest, Opens [] rest → Opens joinEnds (s.toList ++ rest)) :
    Takes (joinTokens d (count + 1)) (token.text d ++ s) (token :: tokens) (Opens []) := by
  have apart : joinEnds.Pairwise Apart := by decide
  have filled : "" ∉ joinEnds := by decide
  cases token with
  | table kind t =>
    rw [JoinToken.text, String.append_assoc]
    refine Takes.choose (List.mem_cons_of_mem _ (List.mem_map_of_mem ?_)) apart filled
      ((takes_baseTable t).bind (later.bind_pure _) opens)
    cases kind <;> decide
  | on c =>
    rw [JoinToken.text, String.append_assoc]
    exact Takes.choose List.mem_cons_self apart filled
      ((takes_condition ends).bind (later.bind_pure _) opens)

theorem takes_joinTokens {tokens : List JoinToken} (ends : ∀ token ∈ tokens, token.Ends d) {count : Nat}
    (enough : tokens.length ≤ count) : Takes (joinTokens d count) (joinTexts d tokens) tokens (Opens []) := by
  induction tokens generalizing count with
  | nil =>
    cases count with
    | zero => exact .pure []
    | succ count =>
      have apart : ∀ w ∈ joinEnds, w ≠ "" ∧ ∀ v ∈ ([] : List String), Apart v w := by decide
      exact (Takes.pure []).otherwise [] apart fun _ follows => follows
  | cons token rest ih =>
    obtain ⟨count, rfl⟩ := Nat.exists_eq_add_of_lt (Nat.lt_of_lt_of_le (Nat.zero_lt_succ _) enough)
    rw [Nat.zero_add] at enough ⊢
    obtain ⟨own, later⟩ := List.forall_mem_cons.mp ends
    exact takes_token own count (ih later (Nat.le_of_succ_le_succ enough)) fun _ => opens_joinTexts rest

/-- The text of a join tree determines its first table and its tokens. -/
theorem joinTexts_injective {t u : BaseTable} {tokens tokens' : List JoinToken}
    (ends : ∀ token ∈ tokens, token.Ends d) (ends' : ∀ token ∈ tokens', token.Ends d)
    (same : baseTable d t ++ joinTexts d tokens = baseTable d u ++ joinTexts d tokens') :
    t = u ∧ tokens = tokens' := by
  let count := max tokens.length tokens'.length
  have whole {t : BaseTable} {tokens : List JoinToken} (ends : ∀ token ∈ tokens, token.Ends d)
      (enough : tokens.length ≤ count) : Takes (do
        let t ← Reader.baseTable d
        return (t, ← joinTokens d count)) (baseTable d t ++ joinTexts d tokens) (t, tokens) (Opens []) :=
    (takes_baseTable t).bind ((takes_joinTokens ends enough).bind_pure (Prod.mk t))
      fun _ => opens_joinTexts tokens
  have first := whole (t := t) ends (Nat.le_max_left _ _) [] (.inl rfl)
  have second := whole (t := u) ends' (Nat.le_max_right _ _) [] (.inl rfl)
  rw [same, second] at first
  cases first
  exact ⟨rfl, rfl⟩

end Reading

end Sql

end ApproxQuery
