import ApproxQuery.Proofs.Query.Places
import ApproxQuery.Proofs.Sql.Grammar
import ApproxQuery.Proofs.Sql.Rendering

/-! Where the text of an expression ends. A scan that keeps track of quotes and parentheses passes over the
whole of it, and stops at the first keyword behind it. -/
namespace ApproxQuery

namespace Sql

/-- Where a scan is: outside of quotes or within them, and in how many parentheses. -/
inductive Spot where
  | plain (depth : Nat)
  | quoted (quote : Char) (depth : Nat)
deriving DecidableEq

variable {d : Dialect}

/-- Identifiers and strings are quoted. -/
def Spot.step (d : Dialect) : Spot → Char → Spot
  | plain depth, c =>
    if c = d.quoteChar ∨ c = '\x27' then quoted c depth
    else if c = '(' then plain (depth + 1)
    else if c = ')' then plain (depth - 1)
    else plain depth
  | quoted quote depth, c => if c = quote then plain depth else quoted quote depth

/-- Splits a text at the first blank before a letter in upper case that is neither quoted nor in
parentheses. -/
def span (d : Dialect) : Spot → List Char → List Char × List Char
  | _, [] => ([], [])
  | spot, c :: rest =>
    if c = ' ' ∧ spot = .plain 0 ∧ rest.head?.any Char.isUpper = true then ([], c :: rest)
    else (span d (spot.step d c) rest).map (c :: ·) fun left => left

/-- The scan passes over the text, and is then at another spot. -/
def Passes (d : Dialect) (spot : Spot) (text : List Char) (last : Spot) : Prop :=
  ∀ rest, span d spot (text ++ rest) = (span d last rest).map (text ++ ·) fun left => left

namespace Passes

variable {a b c : Spot} {s t : List Char} {x : Char}

theorem nil (a : Spot) : Passes d a [] a := fun _ => rfl

theorem cons (goes : ¬ (x = ' ' ∧ a = .plain 0)) (moves : a.step d x = b) (passes : Passes d b s c) :
    Passes d a (x :: s) c := by
  intro rest
  rw [List.cons_append, span, if_neg fun stop => goes ⟨stop.1, stop.2.1⟩, moves, passes]
  rfl

/-- A blank is passed where no letter in upper case follows it. -/
theorem blank {depth : Nat} (next : x.isUpper = false) (passes : Passes d (.plain depth) (x :: s) b) :
    Passes d (.plain depth) (' ' :: x :: s) b := by
  intro rest
  have goes : ¬ ((x :: s) ++ rest).head?.any Char.isUpper = true := by simp [next]
  have moves : (Spot.plain depth).step d ' ' = .plain depth := by cases d <;> rfl
  rw [List.cons_append, span, if_neg fun stop => goes stop.2.2, moves, passes]
  rfl

theorem append (first : Passes d a s b) (second : Passes d b t c) : Passes d a (s ++ t) c := by
  intro rest
  rw [List.append_assoc, first, second]
  simp only [Prod.map, List.append_assoc]

end Passes

/-- The characters by which a scan is moved or stopped. -/
def special : List Char := ['\x22', '\x60', '\x27', '(', ')', ' ']

def isPlain (c : Char) : Bool := c ∉ special

/-- In how many parentheses a text ends that is without quotes, if no blank and no closing parenthesis of it
is outside of them all. -/
def depthAfter : Nat → List Char → Option Nat
  | depth, [] => some depth
  | depth, '(' :: rest => depthAfter (depth + 1) rest
  | depth + 1, ')' :: rest => depthAfter depth rest
  | depth + 1, ' ' :: rest => depthAfter (depth + 1) rest
  | depth, c :: rest => if isPlain c then depthAfter depth rest else none

/-- The scan passes over the text from so many parentheses or more to as many others. -/
def Moves (d : Dialect) (before after : Nat) (s : String) : Prop :=
  ∀ depth, Passes d (.plain (before + depth)) s.toList (.plain (after + depth))

section Steps

variable {c : Char} {depth : Nat}

theorem Spot.step_opening : (plain depth).step d '(' = .plain (depth + 1) := by cases d <;> rfl

theorem Spot.step_closing : (plain (depth + 1)).step d ')' = .plain depth := by cases d <;> rfl

theorem Spot.step_blank : (plain depth).step d ' ' = .plain depth := by cases d <;> rfl

theorem Spot.step_of_isPlain (own : isPlain c = true) : (plain depth).step d c = .plain depth := by
  have apart : ∀ s ∈ special, c ≠ s := fun s among same => of_decide_eq_true own (same ▸ among)
  have quote : c ≠ d.quoteChar := apart _ (by cases d <;> decide)
  have string : c ≠ '\x27' := apart _ (by decide)
  have opening : c ≠ '(' := apart _ (by decide)
  have closing : c ≠ ')' := apart _ (by decide)
  simp [step, quote, string, opening, closing]

end Steps

namespace Moves

variable {n m k : Nat} {s t : String} {quote : Char}

theorem append (first : Moves d n m s) (second : Moves d m k t) : Moves d n k (s ++ t) := by
  intro depth
  rw [String.toList_append]
  exact (first depth).append (second depth)

theorem deeper (moves : Moves d n m s) (more : Nat) : Moves d (n + more) (m + more) s := by
  intro depth
  rw [Nat.add_assoc, Nat.add_assoc]
  exact moves (more + depth)

theorem of_depthAfter (ends : depthAfter n s.toList = some m) : Moves d n m s := by
  intro depth
  generalize s.toList = text at ends
  fun_induction depthAfter n text with
  | case1 before =>
    cases ends
    exact .nil _
  | case2 before rest ih =>
    have opened : before + depth + 1 = before + 1 + depth := Nat.add_right_comm before depth 1
    exact .cons (fun stop => absurd stop.1 (by decide)) Spot.step_opening (opened ▸ ih ends)
  | case3 before rest ih =>
    have opened : before + depth + 1 = before + 1 + depth := Nat.add_right_comm before depth 1
    exact .cons (fun stop => absurd stop.1 (by decide)) (opened ▸ Spot.step_closing) (ih ends)
  | case4 before rest ih =>
    refine .cons (fun stop => ?_) Spot.step_blank (ih ends)
    have outside : before + 1 + depth = 0 := Spot.plain.inj stop.2
    omega
  | case5 before c rest _ _ _ plain ih =>
    refine .cons (fun stop => ?_) (Spot.step_of_isPlain plain) (ih ends)
    rw [stop.1] at plain
    cases plain
  | case6 => cases ends

theorem of_plain (n : Nat) (all : ∀ c ∈ s.toList, isPlain c = true) : Moves d n n s := by
  intro depth
  generalize s.toList = text at all ⊢
  induction text with
  | nil => exact .nil _
  | cons c rest ih =>
    obtain ⟨own, later⟩ := List.forall_mem_cons.mp all
    refine .cons ?_ (Spot.step_of_isPlain own) (ih later)
    rintro ⟨rfl, _⟩
    cases own

/-- A name in lower case up to the parenthesis behind it. -/
theorem called (n : Nat) (all : ∀ c ∈ s.toList, (isPlain c = true ∨ c = ' ') ∧ c.isUpper = false) :
    Moves d n (n + 1) (s ++ "(") := by
  intro depth
  rw [String.toList_append, Nat.add_right_comm]
  generalize s.toList = text at all ⊢
  induction text with
  | nil => exact .cons (fun stop => absurd stop.1 (by decide)) Spot.step_opening (.nil _)
  | cons c rest ih =>
    obtain ⟨⟨own, _⟩, later⟩ := List.forall_mem_cons.mp all
    rcases own with plain | rfl
    · refine .cons (fun stop => ?_) (Spot.step_of_isPlain plain) (ih later)
      rw [stop.1] at plain
      cases plain
    · cases rest with
      | nil => exact .blank rfl (ih later)
      | cons next more => exact .blank (List.forall_mem_cons.mp later).1.2 (ih later)

private theorem ne_blank (isQuote : quote = d.quoteChar ∨ quote = '\x27') : quote ≠ ' ' := by
  rcases isQuote with rfl | rfl
  · cases d <;> decide
  · decide

/-- A doubled quote leaves the quoted text and enters it again. -/
private theorem passes_doubled (isQuote : quote = d.quoteChar ∨ quote = '\x27') (depth : Nat)
    (text : List Char) : Passes d (.quoted quote depth) (doubled quote text ++ [quote]) (.plain depth) := by
  have within (c : Char) : ¬ (c = ' ' ∧ Spot.quoted quote depth = .plain 0) := fun stop => nomatch stop.2
  have leaves : (Spot.quoted quote depth).step d quote = .plain depth := if_pos rfl
  have enters : (Spot.plain depth).step d quote = .quoted quote depth := if_pos isQuote
  induction text with
  | nil => exact .cons (within quote) leaves (.nil _)
  | cons c text ih =>
    by_cases same : c = quote
    · rw [doubled, if_pos same]
      exact .cons (within quote) leaves (.cons (fun stop => ne_blank isQuote stop.1) enters ih)
    · rw [doubled, if_neg same]
      exact .cons (within c) (if_neg same) ih

/-- A quoted text, whatever it contains. -/
theorem enclosed (isQuote : quote = d.quoteChar ∨ quote = '\x27') (n : Nat) (text : String) :
    Moves d n n (enclose quote text) := by
  intro depth
  rw [enclose, String.toList_ofList]
  exact .cons (fun stop => ne_blank isQuote stop.1) (if_pos isQuote)
    (passes_doubled isQuote (n + depth) text.toList)

theorem ident (n : Nat) (name : String) : Moves d n n (d.ident name) := enclosed (.inl rfl) n name

theorem table (n : Nat) (name : TableName) : Moves d n n (Sql.table d name) :=
  ((ident n name.schema).append (of_plain n (by simp [isPlain, special]))).append (ident n name.table)

theorem aliased (asName : Option String) : Moves d 1 1 (Sql.aliased d asName) := by
  cases asName with
  | none => exact of_depthAfter rfl
  | some name => exact .append (of_depthAfter rfl) (ident 1 name)

theorem commas {texts : List String} (each : ∀ s ∈ texts, Moves d 1 1 s) : Moves d 1 1 (Sql.commas texts) := by
  induction texts with
  | nil => exact of_depthAfter rfl
  | cons s rest ih =>
    obtain ⟨first, later⟩ := List.forall_mem_cons.mp each
    cases rest with
    | nil => exact first
    | cons t rest =>
      rw [Sql.commas]
      · exact (first.append (of_depthAfter rfl)).append (ih later)
      · exact List.cons_ne_nil t rest

end Moves

section Literals

theorem isPlain_of_isDigit {c : Char} (digit : c.isDigit = true) : isPlain c = true := by
  have none : ∀ s ∈ special, ¬ s.isDigit = true := by simp [special, Char.isDigit]
  exact decide_eq_true fun among => none c among digit

theorem isPlain_of_mem_digitText {k : Nat} {c : Char} (own : c ∈ (Decimal.digitText k).toList) :
    isPlain c = true := isPlain_of_isDigit (digits_of_digitText own)

theorem Moves.digitText (n k : Nat) : Moves d n n (Decimal.digitText k) :=
  .of_plain n fun _ own => isPlain_of_mem_digitText own

theorem Moves.sign (negative : Bool) : Moves d 0 0 (if negative then "-" else "") := by
  cases negative <;> exact .of_depthAfter rfl

theorem Moves.positional (number : Decimal.Digits) : Moves d 0 0 (number.positional false) := by
  have zero (count : Nat) : ∀ c ∈ List.replicate count '0', isPlain c = true :=
    fun c own => List.eq_of_mem_replicate own ▸ rfl
  have digit : ∀ c ∈ Nat.toDigits 10 number.digits, isPlain c = true := fun c own =>
    isPlain_of_isDigit (Nat.isDigit_of_mem_toDigits (by decide) (by decide) own)
  by_cases whole : 0 ≤ number.exponent
  · rw [Decimal.Digits.positional, if_pos whole]
    refine ((digitText 0 number.digits).append (.of_plain 0 ?_)).append (.of_depthAfter rfl)
    rw [Decimal.zeros, String.toList_ofList]
    exact zero _
  · rw [Decimal.Digits.positional, if_neg whole]
    have padded (count : Nat) : ∀ c ∈ List.replicate count '0' ++ Nat.toDigits 10 number.digits,
        isPlain c = true := List.forall_mem_append.mpr ⟨zero count, digit⟩
    refine .of_plain 0 fun c own => ?_
    rw [String.toList_ofList, List.mem_append, List.mem_cons] at own
    rcases own with before | rfl | after
    · exact padded _ c (List.mem_of_mem_take before)
    · rfl
    · exact padded _ c (List.mem_of_mem_drop after)

theorem Moves.float (x : Float) : Moves d 0 0 (Sql.float x) := by
  by_cases whole : Decimal.isWhole x = true
  · rw [Sql.float, if_pos whole, Decimal.writeWhole]
    cases Decimal.Class.ofFloat x with
    | nan => exact .of_depthAfter rfl
    | infinite _ => exact .of_depthAfter rfl
    | zero negative => cases negative <;> exact .of_depthAfter rfl
    | finite negative magnitude => exact ((sign negative).append (digitText 0 _)).append (.of_depthAfter rfl)
  · rw [Sql.float, if_neg whole, Decimal.Layout.write]
    cases Decimal.Class.ofFloat x with
    | nan => exact .of_depthAfter rfl
    | infinite negative => exact (sign negative).append (.of_depthAfter rfl)
    | zero negative => cases negative <;> exact .of_depthAfter rfl
    | finite negative magnitude => exact (sign negative).append (positional _)

theorem Moves.literal (value : Literal) : Moves d 0 0 (Sql.literal value) := by
  cases value with
  | null => exact .of_depthAfter rfl
  | bool value => cases value <;> exact .of_depthAfter rfl
  | int n =>
    refine Moves.append ?_ (digitText 0 _)
    split
    · exact .of_depthAfter rfl
    · exact .of_depthAfter rfl
  | float x => exact float x
  | str s => exact .enclosed (.inr rfl) 0 s

end Literals

/-- Lower case adds neither quotes nor parentheses, and leaves no letter in upper case. -/
theorem toLower_quiet {c : Char} (own : isPlain c = true ∨ c = ' ') :
    (isPlain c.toLower = true ∨ c.toLower = ' ') ∧ c.toLower.isUpper = false := by
  unfold Char.toLower
  split
  · next upper =>
    have below : ∀ s ∈ special, s.val.toNat < 97 := by simp [special]
    have first : 65 ≤ c.val.toNat := UInt32.le_iff_toNat_le.mp upper.1
    have last : c.val.toNat ≤ 90 := UInt32.le_iff_toNat_le.mp upper.2
    constructor
    · refine .inl (decide_eq_true fun among => ?_)
      have small : (c.val.toNat + 32) % 4294967296 < 97 := below _ among
      omega
    · refine Bool.eq_false_iff.mpr fun again => ?_
      have small : (c.val.toNat + 32) % 4294967296 ≤ 90 := UInt32.le_iff_toNat_le.mp (of_decide_eq_true again).2
      omega
  · next other => exact ⟨own, decide_eq_false other⟩

end Sql

mutual

/-- No name of a function contains a quote or a parenthesis; queries in slots are not entered. -/
def Expr.isDelimited : Expr → Bool
  | .func name args _ =>
    name.toList.all (fun c => Sql.isPlain c || c = ' ') && Expr.areDelimited args
  | .binary _ left right => left.isDelimited && right.isDelimited
  | .not operand => operand.isDelimited
  | .isNull operand _ => operand.isDelimited
  | .inSubquery operand _ _ => operand.isDelimited
  | _ => true

def Expr.areDelimited : List Expr → Bool
  | [] => true
  | e :: rest => e.isDelimited && Expr.areDelimited rest

end

/-- At every level the expressions are delimited, those of join conditions included. -/
def Query.isDelimited (q : Query) : Bool :=
  q.levels.all fun level => (level.exprs ++ level.joinConditions).all Expr.isDelimited

/-- The conditions of an item's join tree are delimited, and so are the queries that the item holds. -/
def FromItem.isDelimited (item : FromItem) : Bool :=
  item.joinConditions.all Expr.isDelimited && item.listed.all Query.isDelimited

open Sql

variable {d : Dialect}

/-- In parentheses, the end of a statement is found. -/
def Query.Delimits (d : Dialect) (q : Query) : Prop := ∀ s, select d q = .ok s → Moves d 1 1 s

/-- The end of an expression is found. -/
def Expr.Delimits (d : Dialect) (e : Expr) : Prop := ∀ s, Sql.expr d e = .ok s → Moves d 0 0 s

section Exprs

theorem Expr.areDelimited_eq (es : List Expr) : areDelimited es = es.all isDelimited := by
  induction es with
  | nil => rfl
  | cons e rest ih => rw [areDelimited, ih, List.all_cons]

private theorem moves_negation (negated : Bool) : Moves d 1 1 (negation negated) := by
  cases negated <;> exact .of_depthAfter rfl

private theorem moves_flag (distinct : Bool) : Moves d 1 1 (if distinct then "DISTINCT " else "") := by
  cases distinct <;> exact .of_depthAfter rfl

/-- The name of a function in lower case opens the list of arguments and nothing else. -/
private theorem moves_call {name : String} (plain : name.toList.all (fun c => isPlain c || c = ' ') = true) :
    Moves d 0 1 (lowerAscii name ++ "(") := by
  refine .called 0 fun c own => ?_
  rw [lowerAscii, String.toList_ofList, List.mem_map] at own
  obtain ⟨before, member, rfl⟩ := own
  have quiet := List.all_eq_true.mp plain before member
  rw [Bool.or_eq_true, decide_eq_true_eq] at quiet
  exact toLower_quiet quiet

/-- The end of an expression is found where those of the queries in its slots are. -/
theorem Expr.delimits {e : Expr} (delimited : e.isDelimited = true)
    (slots : ∀ slot ∈ e.slots, slot.2.Delimits d) : e.Delimits d := by
  revert delimited slots
  refine ExprRule.expr (E := fun e => e.isDelimited = true → (∀ slot ∈ e.slots, slot.2.Delimits d) →
    e.Delimits d) ?_ e
  constructor
  case column =>
    intro table name _ _ s text
    cases table with
    | none =>
      cases text
      exact .ident 0 name
    | some owner =>
      cases text
      exact ((Moves.ident 0 owner).append (.of_depthAfter rfl)).append (.ident 0 name)
  case literal =>
    intro value _ _ s text
    cases text
    exact .literal value
  case star =>
    intro table _ _ s text
    cases table with
    | none =>
      cases text
      exact .of_depthAfter rfl
    | some owner =>
      cases text
      exact (Moves.ident 0 owner).append (.of_depthAfter rfl)
  case func =>
    intro name args distinct ih delimited slots s text
    rw [isDelimited, Bool.and_eq_true, areDelimited_eq] at delimited
    rw [Sql.expr, exprs_eq] at text
    obtain ⟨texts, rendered, ⟨⟩⟩ := bind_eq_ok.mp text
    have each : ∀ t ∈ texts, Moves d 0 0 t := by
      refine forall_of_forall₂ (mapM_eq_ok.mp rendered) fun e own =>
        ih e own (List.all_eq_true.mp delimited.2 e own) ?_
      intro slot member
      apply slots
      rw [Expr.slots, slotsIn_eq]
      exact List.mem_flatMap_of_mem own member
    have listed : Moves d 1 1 (commas texts) := .commas fun t own => (each t own).deeper 1
    exact (((moves_call delimited.1).append (moves_flag distinct)).append listed).append (.of_depthAfter rfl)
  case binary =>
    intro op left right ihLeft ihRight delimited slots s text
    rw [isDelimited, Bool.and_eq_true] at delimited
    rw [Sql.expr] at text
    simp only [bind_eq_ok] at text
    obtain ⟨s, textLeft, t, textRight, ⟨⟩⟩ := text
    have first := ihLeft delimited.1 (fun slot own => slots slot (List.mem_append_left _ own)) s textLeft
    have second := ihRight delimited.2 (fun slot own => slots slot (List.mem_append_right _ own)) t textRight
    have symbol : Moves d 1 1 op.symbol := by cases op <;> exact .of_depthAfter rfl
    have blank : Moves d 1 1 " " := .of_depthAfter rfl
    have opening : Moves d 0 1 "(" := .of_depthAfter rfl
    exact (((((opening.append (first.deeper 1)).append blank).append symbol).append blank).append
      (second.deeper 1)).append (.of_depthAfter rfl)
  case not =>
    intro operand ih delimited slots s text
    obtain ⟨s, rendered, ⟨⟩⟩ := bind_eq_ok.mp text
    have opening : Moves d 0 1 "(NOT " := .of_depthAfter rfl
    exact (opening.append ((ih delimited slots s rendered).deeper 1)).append (.of_depthAfter rfl)
  case isNull =>
    intro operand negated ih delimited slots s text
    obtain ⟨s, rendered, ⟨⟩⟩ := bind_eq_ok.mp text
    have opening : Moves d 0 1 "(" := .of_depthAfter rfl
    have word : Moves d 1 1 " IS " := .of_depthAfter rfl
    exact (((opening.append ((ih delimited slots s rendered).deeper 1)).append word).append
      (moves_negation negated)).append (.of_depthAfter rfl)
  case subquery =>
    intro query _ slots s text
    obtain ⟨s, rendered, ⟨⟩⟩ := bind_eq_ok.mp text
    have opening : Moves d 0 1 "(" := .of_depthAfter rfl
    exact (opening.append (slots _ List.mem_cons_self s rendered)).append (.of_depthAfter rfl)
  case inSubquery =>
    intro operand query negated ih delimited slots s text
    rw [Sql.expr] at text
    simp only [bind_eq_ok] at text
    obtain ⟨s, rendered, t, selected, ⟨⟩⟩ := text
    have first := ih delimited (fun slot own => slots slot (List.mem_append_left _ own)) s rendered
    have second := slots _ (List.mem_append_right _ List.mem_cons_self) t selected
    have opening : Moves d 0 1 "(" := .of_depthAfter rfl
    have blank : Moves d 1 1 " " := .of_depthAfter rfl
    have word : Moves d 1 2 "IN (" := .of_depthAfter rfl
    exact (((((opening.append (first.deeper 1)).append blank).append (moves_negation negated)).append word).append
      (second.deeper 1)).append (.of_depthAfter rfl)
  case existsSubquery =>
    intro query negated _ slots s text
    obtain ⟨s, rendered, ⟨⟩⟩ := bind_eq_ok.mp text
    have opening : Moves d 0 1 "(" := .of_depthAfter rfl
    have word : Moves d 1 2 "EXISTS (" := .of_depthAfter rfl
    exact (((opening.append (moves_negation negated)).append word).append
      ((slots _ List.mem_cons_self s rendered).deeper 1)).append (.of_depthAfter rfl)

end Exprs

section Levels

variable {q sub : Query} {item : FromItem}

theorem Query.isDelimited_iff : q.isDelimited = true ↔ ∀ level ∈ q.levels,
    (∀ e ∈ level.exprs, e.isDelimited = true) ∧ ∀ e ∈ level.joinConditions, e.isDelimited = true := by
  simp [isDelimited, forall_and]

theorem Query.isDelimited_below (delimited : q.isDelimited = true) (held : sub ∈ q.listed ∨ sub ∈ q.slotted) :
    sub.isDelimited = true :=
  isDelimited_iff.mpr fun level below =>
    isDelimited_iff.mp delimited level (mem_levels.mpr (.inr ⟨sub, held, below⟩))

private theorem moves_clause {w : String} (word : Moves d 1 1 w) {texts : List String}
    (each : ∀ s ∈ texts, Moves d 1 1 s) : Moves d 1 1 (select.clause w texts) := by
  cases texts with
  | nil => exact .of_depthAfter rfl
  | cons s rest =>
    rw [select.clause]
    · exact word.append (.commas each)
    · exact List.cons_ne_nil s rest

private theorem moves_condition {w : String} (word : Moves d 1 1 w) {e : Option Expr} {s : String}
    (text : condition d w e = .ok s) (each : ∀ own ∈ e, own.Delimits d) : Moves d 1 1 s := by
  cases e with
  | none =>
    cases text
    exact .of_depthAfter rfl
  | some own =>
    obtain ⟨t, rendered, ⟨⟩⟩ := bind_eq_ok.mp text
    exact word.append ((each own rfl t rendered).deeper 1)

/-- In parentheses, the end of an item is found where those of its parts are. -/
theorem FromItem.delimits (conditions : ∀ e ∈ item.joinConditions, e.Delimits d)
    (derived : ∀ sub ∈ item.directSubqueries, sub.Delimits d) {s : String}
    (text : fromItem d item = .ok s) : Moves d 1 1 s := by
  induction item using FromItem.treeInduction generalizing s with
  | table t =>
    cases text
    exact (Moves.table 1 t.name).append (.aliased t.asName)
  | subquery q =>
    obtain ⟨s, rendered, ⟨⟩⟩ := bind_eq_ok.mp text
    have opening : Moves d 1 2 "(" := .of_depthAfter rfl
    have inner := (derived q List.mem_cons_self s rendered).deeper 1
    exact ((opening.append inner).append (.of_depthAfter rfl)).append (.aliased q.asName)
  | join left right kind on ihLeft ihRight =>
    rw [joinConditions, List.forall_mem_append, List.forall_mem_append] at conditions
    rw [directSubqueries, List.forall_mem_append] at derived
    rw [fromItem_join] at text
    simp only [bind_eq_ok] at text
    obtain ⟨s, textLeft, t, textRight, u, clause, ⟨⟩⟩ := text
    have words : Moves d 1 1 (joinWords kind) := by cases kind <;> exact .of_depthAfter rfl
    have own : Moves d 1 1 u := by
      refine moves_condition (.of_depthAfter rfl) clause fun e member => ?_
      exact conditions.2 e (Option.mem_toList.mpr member)
    exact (((ihLeft conditions.1.1 derived.1 textLeft).append words).append
      (ihRight conditions.1.2 derived.2 textRight)).append own
  | placeholder ref =>
    cases text
    have word : Moves d 1 1 " AS " := .of_depthAfter rfl
    exact ((Moves.table 1 ref.table).append word).append (.ident 1 ref.asName)

/-- A statement is delimited where its expressions and its items are. -/
private theorem delimits_level (exprs : ∀ e ∈ q.exprs, e.Delimits d)
    (items : ∀ item ∈ q.fromList, ∀ s, fromItem d item = .ok s → Moves d 1 1 s) : q.Delimits d := by
  intro s text
  obtain ⟨parts, rendered, rfl⟩ := select_eq_ok text
  obtain ⟨selected, filtered, grouped, had, sorted⟩ := Query.forall_mem_exprs.mp exprs
  have outputs : ∀ s ∈ parts.outputs, Moves d 1 1 s := by
    refine forall_of_forall₂ rendered.outputs fun item own s text => ?_
    obtain ⟨t, first, ⟨⟩⟩ := bind_eq_ok.mp text
    exact ((selected item own t first).deeper 1).append (.aliased item.asName)
  have groups : ∀ s ∈ parts.groups, Moves d 1 1 s :=
    forall_of_forall₂ rendered.groups fun e own s text => (grouped e own s text).deeper 1
  have keys : ∀ s ∈ parts.keys, Moves d 1 1 s := by
    refine forall_of_forall₂ rendered.keys fun item own s text => ?_
    obtain ⟨t, first, ⟨⟩⟩ := bind_eq_ok.mp text
    refine ((sorted item own t first).deeper 1).append ?_
    cases item.descending <;> exact .of_depthAfter rfl
  have limit : Moves d 1 1 (limitText q.limit) := by
    cases q.limit with
    | none => exact .of_depthAfter rfl
    | some n => exact .append (.of_depthAfter rfl) (.digitText 1 n.toNat)
  have sources := moves_clause (d := d) (w := " FROM ") (.of_depthAfter rfl)
    (forall_of_forall₂ rendered.sources items)
  have filter := moves_condition (.of_depthAfter rfl) rendered.filter filtered
  have groupBy := moves_clause (d := d) (w := " GROUP BY ") (.of_depthAfter rfl) groups
  have having' := moves_condition (.of_depthAfter rfl) rendered.having had
  have orderBy := moves_clause (d := d) (w := " ORDER BY ") (.of_depthAfter rfl) keys
  have word : Moves d 1 1 "SELECT " := .of_depthAfter rfl
  exact word.append ((Moves.commas outputs).append (sources.append (filter.append (groupBy.append
    (having'.append (orderBy.append limit))))))

theorem Query.delimits (delimited : q.isDelimited = true) : q.Delimits d := by
  induction q using nestedInduction with
  | level q listed slotted =>
    obtain ⟨exprs, conditions⟩ := isDelimited_iff.mp delimited q q.self_mem_levels
    refine delimits_level (fun e own => ?_) fun item own s => FromItem.delimits (fun e among => ?_) fun sub among => ?_
    · refine Expr.delimits (exprs e own) fun slot member => ?_
      have held : slot.2 ∈ q.slotted := mem_slotted.mpr ⟨e, own, slot, member, rfl⟩
      exact slotted slot.2 held (isDelimited_below delimited (.inr held))
    · refine Expr.delimits (conditions e (List.mem_flatMap_of_mem own among)) fun slot member => ?_
      have held : slot.2 ∈ q.listed := List.mem_flatMap_of_mem own (FromItem.listed_of_condition among member)
      exact listed slot.2 held (isDelimited_below delimited (.inl held))
    · have held : sub ∈ q.listed := List.mem_flatMap_of_mem own (FromItem.listed_of_derived among)
      exact listed sub held (isDelimited_below delimited (.inl held))

theorem FromItem.delimits_condition (delimited : item.isDelimited = true) {e : Expr}
    (own : e ∈ item.joinConditions) : e.Delimits d := by
  rw [isDelimited, Bool.and_eq_true, List.all_eq_true, List.all_eq_true] at delimited
  refine Expr.delimits (delimited.1 e own) fun slot member => ?_
  exact Query.delimits (delimited.2 slot.2 (listed_of_condition own member))

end Levels

end ApproxQuery
