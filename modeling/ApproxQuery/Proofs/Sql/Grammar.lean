import ApproxQuery.Proofs.Sql.Reader
import ApproxQuery.Proofs.Sql.Shown

/-! The grammar of SQL text as readers, and what they take of each form of expression, whatever names and
strings contain. -/
namespace ApproxQuery.Sql

namespace Reader

/-- A quoted name. -/
def ident (d : Dialect) : Reader String := do
  word (String.singleton d.quoteChar)
  closing d.quoteChar

/-- A name behind `AS`, if there is one. -/
def optionalName (d : Dialect) : Reader (Option String) := clause " AS " (do return some (← ident d)) none

def number : Reader Nat := do return Nat.ofDigitChars 10 (← run Char.isDigit).toList 0

/-- What a word means that names no function. -/
def wordLiteral (w : String) : Literal :=
  if w = "NULL" then .null
  else if w = "TRUE" then .bool true
  else if w = "FALSE" then .bool false
  else .int (Int64.ofInt (Nat.ofDigitChars 10 w.toList 0))

def operators : List BinaryOp :=
  [.add, .sub, .mul, .div, .eq, .notEq, .lt, .ltEq, .gt, .gtEq, .and, .or, .like]

section Expressions

variable (d : Dialect) (expr : Reader Expr) (query : Reader Query)

/-- A column or a star of a table, behind the point. -/
def qualified (owner : String) : Reader Expr :=
  choose (do return .column (some owner) (← ident d)) [("*", pure (.star (some owner)))]

/-- A column or a star, behind its first name. -/
def afterName (name : String) : Reader Expr := clause "." (qualified d name) (.column none name)

/-- The arguments of a call, up to the closing parenthesis. -/
def arguments : Reader (List Expr) := choose (do
    let args ← separated expr
    word ")"
    return args) [(")", pure [])]

/-- A call behind its opening parenthesis. -/
def call (name : String) : Reader Expr := do
  let distinct ← clause "DISTINCT " (pure true) false
  return .func name (← arguments expr) distinct

/-- A call or a literal, behind its first word. -/
def afterWord (w : String) : Reader Expr := clause "(" (call expr w) (.literal (wordLiteral w))

/-- A statement and what closes it. -/
def statement (close : String) : Reader Query := do
  word "SELECT "
  let q ← query
  word close
  return q

/-- What stands behind an operand, up to the closing parenthesis. -/
def endings (operand : Expr) : List (String × Reader Expr) :=
  [(" IS NULL)", pure (.isNull operand false)),
    (" IS NOT NULL)", pure (.isNull operand true)),
    (" IN (", do return .inSubquery operand (← statement query "))") false),
    (" NOT IN (", do return .inSubquery operand (← statement query "))") true)]
  ++ operators.map fun op => (" " ++ op.symbol ++ " ", do
    let right ← expr
    word ")"
    return .binary op operand right)

/-- An expression behind its opening parenthesis and `NOT`. -/
def afterNot : Reader Expr := choose (do
    let operand ← expr
    word ")"
    return .not operand)
  [("EXISTS (", do return .existsSubquery (← statement query "))") true)]

/-- The forms of expressions that a keyword tells apart behind their opening parenthesis. -/
def keyworded : List (String × Reader Expr) :=
  [("SELECT ", do
      let q ← query
      word ")"
      return .subquery q),
    ("EXISTS (", do return .existsSubquery (← statement query "))") false),
    ("NOT ", afterNot expr query)]

/-- An expression behind its opening parenthesis. -/
def parenthesised : Reader Expr := choose (do
    let operand ← expr
    choose (fun _ => none) (endings expr query operand)) (keyworded expr query)

/-- The forms of expressions that do not begin with a word. -/
def forms : List (String × Reader Expr) :=
  [("(", parenthesised expr query),
    ("*", pure (.star none)),
    (String.singleton '\x27', do return .literal (.str (← closing '\x27'))),
    ("-", do return .literal (.int (Int64.ofInt (-(← number))))),
    (String.singleton d.quoteChar, do
      let name ← closing d.quoteChar
      afterName d name)]

/-- An expression, given readers of what it holds. -/
def exprStep : Reader Expr := choose (do
    let w ← run isWordChar
    afterWord expr w) (forms d expr query)

end Expressions

section Levels

variable (d : Dialect) (expr : Reader Expr) (query : Reader Query)

def selectItem : Reader SelectItem := do
  let e ← expr
  return ⟨e, ← optionalName d⟩

def orderItem : Reader OrderItem := do
  let e ← expr
  return ⟨e, ← clause " DESC" (pure true) false⟩

def fromItem : Reader FromItem := choose (do
    let schema ← ident d
    word "."
    let table ← ident d
    return .table ⟨schema, table, ← optionalName d⟩)
  [("(", do
    let q ← statement query ")"
    return .subquery { q with asName := ← optionalName d })]

/-- The clauses behind a select list. -/
def clauses (selectList : List SelectItem) : Reader Query := do
  let fromList ← clause " FROM " (separated (fromItem d query)) []
  let filter ← clause " WHERE " (do return some (← expr)) none
  let groupBy ← clause " GROUP BY " (separated expr) []
  let having ← clause " HAVING " (do return some (← expr)) none
  let orderBy ← clause " ORDER BY " (separated (orderItem expr)) []
  let limit ← clause " LIMIT " (do return some (UInt64.ofNat (← number))) none
  return ⟨selectList, fromList, filter, groupBy, having, orderBy, limit, none⟩

/-- A statement behind its first word, given readers of what it holds. -/
def queryStep : Reader Query := do
  let selectList ← separated (selectItem d expr)
  clauses d expr query selectList

end Levels

/-- Readers of expressions and of statements that are nested no deeper than a bound. -/
def within (d : Dialect) : Nat → Reader Expr × Reader Query
  | 0 => (fun _ => none, fun _ => none)
  | depth + 1 =>
    let (expr, query) := within d depth
    (exprStep d expr query, queryStep d expr query)

end Reader

/-- Reads a statement. The nesting is no deeper than the text is long. -/
def read (d : Dialect) (s : String) : Option Query :=
  match (do Reader.word "SELECT "; (Reader.within d (s.length + 1)).2 : Reader Query) s.toList with
  | some (q, []) => some q
  | _ => none

open Reader

section Words

/-- What may stand behind an expression. -/
def afterExpr : List String := [" ", ")", ","]

/-- With what an unquoted word may begin: those in upper case, and what names of functions and whole
numbers begin with. -/
def wordHeads : List String :=
  ["NULL", "TRUE", "FALSE"] ++ "abcdefghijklmnopqrstuvwxyz0123456789_".toList.map String.singleton

/-- With what an expression may begin. No keyword that tells a form apart does so. -/
def exprHeads : List String := ["(", "*", "\x27", "-", "\x22", "\x60"] ++ wordHeads

/-- The words that tell what stands behind an operand. -/
def endingWords : List String :=
  [" IS NULL)", " IS NOT NULL)", " IN (", " NOT IN ("] ++ operators.map fun op => " " ++ op.symbol ++ " "

private theorem toNat_lt_of_isWordChar {c : Char} (inWord : isWordChar c = true) : c.toNat < 128 := by
  have ranges : (decide (c.val ≥ 'A'.val ∧ c.val ≤ 'Z'.val) || (c.val ≥ 'a'.val && c.val ≤ 'z'.val)
      || (c.val ≥ '0'.val && c.val ≤ '9'.val) || decide (c = '_')) = true := inWord
  simp only [Bool.or_eq_true, Bool.and_eq_true, decide_eq_true_eq, UInt32.le_iff_toNat_le] at ranges
  rcases ranges with ((⟨_, below⟩ | ⟨_, below⟩) | ⟨_, below⟩) | rfl
  · exact Nat.lt_of_le_of_lt below (by decide)
  · exact Nat.lt_of_le_of_lt below (by decide)
  · exact Nat.lt_of_le_of_lt below (by decide)
  · decide

/-- The ASCII characters are checked one by one. -/
private theorem lowered_isWordChar {c : Char} (inWord : isWordChar c = true) :
    isWordChar c.toLower = true ∧ String.singleton c.toLower ∈ wordHeads := by
  have all : ∀ n < 128, isWordChar (Char.ofNat n) = true → isWordChar (Char.ofNat n).toLower = true
      ∧ String.singleton (Char.ofNat n).toLower ∈ wordHeads := by
    decide
  have own := all c.toNat (toNat_lt_of_isWordChar inWord)
  rw [c.ofNat_toNat] at own
  exact own inWord

private theorem digit_isWordChar {c : Char} (digit : c.isDigit = true) :
    isWordChar c = true ∧ String.singleton c ∈ wordHeads := by
  have inWord : isWordChar c = true := by simp [isWordChar, Char.isAlphanum, digit]
  have all : ∀ n < 128, (Char.ofNat n).isDigit = true → String.singleton (Char.ofNat n) ∈ wordHeads := by
    decide
  have own := all c.toNat (toNat_lt_of_isWordChar inWord)
  rw [c.ofNat_toNat] at own
  exact ⟨inWord, own digit⟩

private theorem opens_first {w : String} {c : Char} {cs : List Char} (characters : w.toList = c :: cs)
    (head : String.singleton c ∈ wordHeads) (rest : List Char) : Opens wordHeads (w.toList ++ rest) := by
  have split : w = String.singleton c ++ String.ofList cs := by
    apply String.toList_inj.mp
    rw [characters, String.toList_append, String.toList_singleton, String.toList_ofList,
      List.singleton_append]
  rw [split]
  exact opens_append head _ rest

theorem digits_of_digitText {k : Nat} {c : Char} (member : c ∈ (Decimal.digitText k).toList) :
    c.isDigit = true := by
  rw [Decimal.digitText, String.toList_ofList] at member
  exact Nat.isDigit_of_mem_toDigits (by decide) (by decide) member

private theorem ofDigitChars_digitText (k : Nat) : Nat.ofDigitChars 10 (Decimal.digitText k).toList 0 = k := by
  rw [Decimal.digitText, String.toList_ofList]
  exact Nat.ofDigitChars_toDigits (by decide) (by decide)

private theorem digitText_cons (k : Nat) : ∃ c cs, (Decimal.digitText k).toList = c :: cs := by
  rw [Decimal.digitText, String.toList_ofList]
  exact List.exists_cons_of_ne_nil Nat.toDigits_ne_nil

private theorem opens_digitText (k : Nat) (rest : List Char) :
    Opens wordHeads ((Decimal.digitText k).toList ++ rest) := by
  obtain ⟨c, cs, characters⟩ := digitText_cons k
  have digit : c.isDigit = true := digits_of_digitText (characters ▸ List.mem_cons_self)
  exact opens_first characters (digit_isWordChar digit).2 rest

theorem takes_number {words : List String} (k : Nat) (filled : "" ∉ words)
    (stops : (heads words).any Char.isDigit = false) :
    Takes number (Decimal.digitText k) k (Opens words) := by
  have run : Takes (Reader.run Char.isDigit) (Decimal.digitText k) (Decimal.digitText k) (Opens words) :=
    .run (List.all_eq_true.mpr fun c member => digits_of_digitText member) filled stops
  have takes := run.bind_pure fun digits => Nat.ofDigitChars 10 digits.toList 0
  rwa [ofDigitChars_digitText] at takes

private theorem wordLiteral_digitText (k : Nat) : wordLiteral (Decimal.digitText k) = .int (Int64.ofInt k) := by
  have lower {w : String} (upper : w.toList.head?.any (fun c => !c.isDigit) = true) :
      Decimal.digitText k ≠ w := by
    rintro rfl
    obtain ⟨c, cs, characters⟩ := digitText_cons k
    rw [characters] at upper
    have digit : c.isDigit = true := digits_of_digitText (characters ▸ List.mem_cons_self)
    simp [digit] at upper
  rw [wordLiteral, if_neg (lower (by decide)), if_neg (lower (by decide)), if_neg (lower (by decide)),
    ofDigitChars_digitText]

private theorem lowerAscii_word {name : String} (word : isWord name = true) :
    (lowerAscii name).toList.all isWordChar = true
      ∧ ∀ rest, Opens wordHeads ((lowerAscii name).toList ++ rest) := by
  rw [isWord, Bool.and_eq_true, List.all_eq_true] at word
  obtain ⟨filled, all⟩ := word
  have characters : (lowerAscii name).toList = name.toList.map Char.toLower := String.toList_ofList
  constructor
  · rw [characters, List.all_eq_true]
    intro c member
    obtain ⟨before, own, rfl⟩ := List.mem_map.mp member
    exact (lowered_isWordChar (all before own)).1
  · cases first : name.toList with
    | nil =>
      rw [String.toList_eq_nil_iff.mp first] at filled
      cases filled
    | cons c cs =>
      rw [first, List.map_cons] at characters
      exact opens_first characters (lowered_isWordChar (all c (first ▸ List.mem_cons_self))).2

end Words

section Names

variable {d : Dialect} {words : List String}

theorem enclose_eq (quote : Char) (text : String) : enclose quote text = String.singleton quote
    ++ String.ofList (doubled quote text.toList ++ [quote]) := by
  apply String.toList_inj.mp
  rw [enclose, String.toList_append, String.toList_ofList, String.toList_ofList,
    String.toList_singleton, List.singleton_append]

theorem takes_ident (name : String) (filled : "" ∉ words) (stops : d.quoteChar ∉ heads words) :
    Takes (ident d) (d.ident name) name (Opens words) := by
  rw [Dialect.ident, enclose_eq]
  exact .behind _ (.closing name filled stops)

/-- An alias is left out, or stands behind `AS`. -/
theorem aliasClause (asName : Option String) (filled : "" ∉ words) (apart : ∀ v ∈ words, Apart v " AS ")
    (stops : d.quoteChar ∉ heads words) :
    Phrase " AS " (do return some (← ident d)) none (aliased d asName) asName words := by
  cases asName with
  | none => exact .leftOut nofun apart
  | some name => exact .stands nofun ((takes_ident name filled stops).bind_pure some)

end Names

section Expressions

variable {d : Dialect} {read : Reader Expr} {query : Reader Query} {e e' : Expr} {q : Query} {s t : String}

private def formWords (d : Dialect) : List String :=
  ["(", "*", String.singleton '\x27', "-", String.singleton d.quoteChar]

theorem takes_statement {close : String} {follow : List Char → Prop}
    (takes : Takes query s q (Opens [")"])) (closes : ")".toList <+: close.toList) :
    Takes (statement query close) ("SELECT " ++ s ++ close) q follow := by
  rw [String.append_assoc]
  exact .behind _ (takes.upTo (fun q => q) ⟨")", List.mem_cons_self, closes⟩)

/-- The text of an expression is taken, and no keyword stands where it begins. -/
structure Operand (read : Reader Expr) (s : String) (e : Expr) : Prop where
  takes : Takes read s e (Opens afterExpr)
  opens : ∀ rest, Opens exprHeads (s.toList ++ rest)

namespace Operand

/-- The first characters tell the forms of expressions apart. -/
private theorem form {w : String} {own : Reader Expr} (takes : Takes own s e (Opens afterExpr))
    (member : (w, own) ∈ forms d read query) : Operand (exprStep d read query) (w ++ s) e := by
  have words : (forms d read query).map Prod.fst = formWords d := rfl
  constructor
  case takes =>
    apply takes.choose member
    · rw [words]
      cases d <;> decide
    · rw [words]
      cases d <;> decide
  case opens =>
    have own : w ∈ formWords d := words ▸ List.mem_map_of_mem member
    have head : formWords d ⊆ exprHeads := by cases d <;> decide
    exact opens_append (head own) s

private theorem named {name : String}
    (clause : Phrase "." (qualified d name) (.column none name) s e afterExpr) :
    Operand (exprStep d read query) (d.ident name ++ s) e := by
  have stops : d.quoteChar ∉ heads ("." :: afterExpr) := by cases d <;> decide
  rw [Dialect.ident, enclose_eq, String.append_assoc]
  refine form ?_ (.tail _ (.tail _ (.tail _ (.tail _ (.head _)))))
  exact Takes.bind (.closing name (by decide) stops) clause.takes clause.opens

theorem column (table : Option String) (name : String) (text : Sql.expr d (.column table name) = .ok s) :
    Operand (exprStep d read query) s (.column table name) := by
  cases table with
  | none =>
    cases text
    have alone : Phrase "." (qualified d name) (.column none name) "" (.column none name) afterExpr :=
      .leftOut nofun (by decide)
    have operand : Operand (exprStep d read query) (d.ident name ++ "") _ := named alone
    rwa [String.append_empty] at operand
  | some owner =>
    cases text
    rw [String.append_assoc]
    have stops : d.quoteChar ∉ heads afterExpr := by cases d <;> decide
    have takes := (takes_ident name (by decide) stops).bind_pure (Expr.column (some owner))
    refine named (.stands nofun (takes.absent [String.singleton d.quoteChar] nofun ?_ fun rest _ => ?_))
    · cases d <;> decide
    · rw [Dialect.ident, enclose_eq]
      exact opens_append List.mem_cons_self _ rest

theorem star (table : Option String) (text : Sql.expr d (.star table) = .ok s) :
    Operand (exprStep d read query) s (.star table) := by
  cases table with
  | none =>
    cases text
    have operand : Operand (exprStep d read query) ("*" ++ "") (.star none) :=
      form (.pure _) (.tail _ (.head _))
    rwa [String.append_empty] at operand
  | some owner =>
    cases text
    have takes : Takes (qualified d owner) ("*" ++ "") (.star (some owner)) (Opens afterExpr) :=
      .present nofun (.pure _)
    have operand : Operand (exprStep d read query) (d.ident owner ++ ("." ++ ("*" ++ ""))) _ :=
      named (.stands nofun takes)
    exact operand

private theorem worded {w : String} (all : w.toList.all isWordChar = true)
    (opens : ∀ rest, Opens wordHeads (w.toList ++ rest))
    (clause : Phrase "(" (call read w) (.literal (wordLiteral w)) s e afterExpr) :
    Operand (exprStep d read query) (w ++ s) e := by
  have words : (forms d read query).map Prod.fst = formWords d := rfl
  have run : Takes (Reader.run isWordChar) w w (Opens ("(" :: afterExpr)) :=
    .run all (by decide) (by decide)
  have begins (rest : List Char) : Opens wordHeads ((w ++ s).toList ++ rest) := by
    rw [String.toList_append, List.append_assoc]
    exact opens _
  constructor
  case takes =>
    refine Takes.otherwise (run.bind clause.takes clause.opens) wordHeads ?_ fun rest _ => begins rest
    rw [words]
    cases d <;> decide
  case opens => exact fun rest => (begins rest).subset (List.subset_append_right _ _)

/-- A word that no parenthesis follows is a literal. -/
private theorem bare {w : String} (all : w.toList.all isWordChar = true)
    (opens : ∀ rest, Opens wordHeads (w.toList ++ rest)) :
    Operand (exprStep d read query) w (.literal (wordLiteral w)) := by
  have operand : Operand (exprStep d read query) (w ++ "") (.literal (wordLiteral w)) :=
    worded all opens (.leftOut nofun (by decide))
  rwa [String.append_empty] at operand

private theorem upper (w : String) (all : w.toList.all isWordChar = true) (head : w ∈ wordHeads) :
    Operand (exprStep d read query) w (.literal (wordLiteral w)) := by
  apply bare all
  intro rest
  have opens := opens_append head "" rest
  rwa [String.append_empty] at opens

theorem literal (value : Literal) (legible : (Expr.literal value).isLegible = true)
    (text : Sql.expr d (.literal value) = .ok s) : Operand (exprStep d read query) s (.literal value) := by
  cases text
  cases value with
  | null => exact upper "NULL" (by decide) (by decide)
  | bool value =>
    cases value with
    | true => exact upper "TRUE" (by decide) (by decide)
    | false => exact upper "FALSE" (by decide) (by decide)
  | int n =>
    by_cases negative : n.toInt < 0
    · have signed : Sql.literal (.int n) = "-" ++ Decimal.digitText n.toInt.natAbs := by
        rw [Sql.literal, int, if_pos negative]
      have whole : Int64.ofInt (-(n.toInt.natAbs : Int)) = n := by
        rw [Int.ofNat_natAbs_of_nonpos (Int.le_of_lt negative), Int.neg_neg, Int64.ofInt_toInt]
      have digits : Takes number _ _ (Opens afterExpr) :=
        takes_number n.toInt.natAbs (by decide) (by decide)
      have takes := digits.bind_pure fun k => Expr.literal (.int (Int64.ofInt (-k)))
      rw [whole] at takes
      rw [signed]
      exact form takes (.tail _ (.tail _ (.tail _ (.head _))))
    · have plain : Sql.literal (.int n) = Decimal.digitText n.toInt.natAbs := by
        rw [Sql.literal, int, if_neg negative, String.empty_append]
      have whole : Int64.ofInt (n.toInt.natAbs : Int) = n := by
        rw [Int.natAbs_of_nonneg (Int.not_lt.mp negative), Int64.ofInt_toInt]
      have operand : Operand (exprStep d read query) (Decimal.digitText n.toInt.natAbs) _ :=
        bare (List.all_eq_true.mpr fun c member => (digit_isWordChar (digits_of_digitText member)).1)
          (opens_digitText n.toInt.natAbs)
      rwa [wordLiteral_digitText, whole, ← plain] at operand
  | float x => cases legible
  | str value =>
    rw [Sql.literal, enclose_eq]
    refine form ?_ (.tail _ (.tail _ (.head _)))
    exact (Takes.closing value (by decide) (by decide)).bind_pure fun value => Expr.literal (.str value)

private theorem arguments {texts : List String} {values : List Expr}
    (each : List.Forall₂ (Operand read) texts values) :
    Takes (Reader.arguments read) (commas texts ++ ")") values (Opens afterExpr)
      ∧ ∀ rest, Opens (")" :: exprHeads) ((commas texts ++ ")").toList ++ rest) := by
  cases each with
  | nil =>
    have takes : Takes (Reader.arguments read) (")" ++ "") [] (Opens afterExpr) := .present nofun (.pure _)
    exact ⟨takes, fun rest => opens_append List.mem_cons_self "" rest⟩
  | @cons s e texts values first later =>
    have items : List.Forall₂ (fun s e => Takes read s e (Opens [", ", ")"])) (s :: texts) (e :: values) :=
      List.Forall₂.imp (fun _ _ operand => operand.takes.mono fun _ opens => opens.mono (by decide))
        (.cons first later)
    have listed : Takes (separated read) (commas (s :: texts)) (e :: values) (Opens [")"]) :=
      .separated (by decide) (List.cons_ne_nil _ _) items
    have begins (rest : List Char) : Opens exprHeads ((commas (s :: texts) ++ ")").toList ++ rest) := by
      rw [String.toList_append, List.append_assoc]
      exact opens_commas first.opens texts _
    refine ⟨?_, fun rest => (begins rest).subset (List.subset_cons_self _ _)⟩
    -- No argument begins with the closing parenthesis that an empty list has here.
    refine Takes.absent ?_ exprHeads nofun (by decide) fun rest _ => begins rest
    exact listed.upTo _ (by decide)

theorem func {name : String} {texts : List String} {values : List Expr} (distinct : Bool)
    (named : isWord name = true) (each : List.Forall₂ (Operand read) texts values) :
    Operand (exprStep d read query)
      (lowerAscii name ++ "(" ++ (if distinct then "DISTINCT " else "") ++ commas texts ++ ")")
      (.func (lowerAscii name) values distinct) := by
  obtain ⟨takes, begins⟩ := arguments each
  have flag : Phrase "DISTINCT " (pure true) false (if distinct then "DISTINCT " else "") distinct
      (")" :: exprHeads) := by
    cases distinct with
    | true => exact .stands nofun (s := "") (.pure true)
    | false => exact .leftOut nofun (by decide)
  obtain ⟨all, first⟩ := lowerAscii_word named
  simp only [String.append_assoc]
  refine worded all first (.stands nofun ?_)
  exact flag.takes.bind (takes.bind_pure _) fun rest _ => begins rest

private def keywords : List String := ["SELECT ", "EXISTS (", "NOT "]

/-- An expression in parentheses that begins with a keyword. -/
private theorem keyword {w : String} {own : Reader Expr} (takes : Takes own s e (Opens afterExpr))
    (member : (w, own) ∈ keyworded read query) : Operand (exprStep d read query) ("(" ++ (w ++ s)) e := by
  refine form (takes.choose member ?_ ?_) (.head _)
  · exact (by decide : keywords.Pairwise Apart)
  · exact (by decide : "" ∉ keywords)

/-- An expression in parentheses that begins with an operand. -/
private theorem followed {w : String} {own : Reader Expr} (operand : Operand read s e)
    (takes : Takes own t e' (Opens afterExpr)) (member : (w, own) ∈ endings read query e) :
    Operand (exprStep d read query) ("(" ++ (s ++ (w ++ t))) e' := by
  have words : (endings read query e).map Prod.fst = endingWords := rfl
  have spaced : ∀ w ∈ endingWords, " ".toList <+: w.toList := by decide
  have ending : Takes (Reader.choose (fun _ => none) (endings read query e)) (w ++ t) e' (Opens afterExpr) :=
    takes.choose member (words ▸ by decide) (words ▸ by decide)
  -- The operand ends at the blank of the ending, and it begins as no keyword does.
  refine form (Takes.otherwise (operand.takes.bind ending fun rest _ => ?_) exprHeads ?_ fun rest _ => ?_)
    (.head _)
  · refine (opens_append (List.mem_singleton_self w) t rest).mono fun v own => ?_
    rw [List.mem_singleton.mp own]
    exact ⟨" ", List.mem_cons_self, spaced w (words ▸ List.mem_map_of_mem member)⟩
  · exact (by decide : ∀ w ∈ keywords, w ≠ "" ∧ ∀ v ∈ exprHeads, Apart v w)
  · rw [String.toList_append, List.append_assoc]
    exact operand.opens _

theorem binary (op : BinaryOp) (left : Operand read s e) (right : Operand read t e') :
    Operand (exprStep d read query) ("(" ++ s ++ " " ++ op.symbol ++ " " ++ t ++ ")") (.binary op e e') := by
  have split : "(" ++ s ++ " " ++ op.symbol ++ " " ++ t ++ ")"
      = "(" ++ (s ++ (" " ++ op.symbol ++ " " ++ (t ++ ")"))) := by simp only [String.append_assoc]
  have member : op ∈ operators := by cases op <;> decide
  rw [split]
  refine followed left (right.takes.upTo _ (by decide)) (List.mem_append_right _ ?_)
  exact List.mem_map_of_mem member

theorem isNull (negated : Bool) (operand : Operand read s e) :
    Operand (exprStep d read query) ("(" ++ s ++ " IS " ++ negation negated ++ "NULL)")
      (.isNull e negated) := by
  have split : "(" ++ s ++ " IS " ++ negation negated ++ "NULL)"
      = "(" ++ (s ++ (" IS " ++ negation negated ++ "NULL)" ++ "")) := by
    simp only [String.append_assoc, String.append_empty]
  rw [split]
  refine followed operand (.pure _) ?_
  cases negated with
  | false => exact .head _
  | true => exact .tail _ (.head _)

theorem inSubquery (negated : Bool) (operand : Operand read s e) (takes : Takes query t q (Opens [")"])) :
    Operand (exprStep d read query)
      ("(" ++ s ++ " " ++ negation negated ++ "IN (" ++ ("SELECT " ++ t) ++ "))")
      (.inSubquery e q negated) := by
  have split : "(" ++ s ++ " " ++ negation negated ++ "IN (" ++ ("SELECT " ++ t) ++ "))"
      = "(" ++ (s ++ (" " ++ negation negated ++ "IN (" ++ ("SELECT " ++ t ++ "))"))) := by
    simp only [String.append_assoc]
  have inner : Takes (statement query "))") ("SELECT " ++ t ++ "))") q (Opens afterExpr) :=
    takes_statement takes (by decide)
  rw [split]
  refine followed operand (inner.bind_pure (Expr.inSubquery e · negated)) ?_
  cases negated with
  | false => exact .tail _ (.tail _ (.head _))
  | true => exact .tail _ (.tail _ (.tail _ (.head _)))

theorem not (operand : Operand read s e) :
    Operand (exprStep d read query) ("(NOT " ++ s ++ ")") (.not e) := by
  have plain : Takes (afterNot read query) (s ++ ")") (.not e) (Opens afterExpr) := by
    refine Takes.absent (operand.takes.upTo _ (by decide)) exprHeads nofun (by decide) fun rest _ => ?_
    rw [String.toList_append, List.append_assoc]
    exact operand.opens _
  have split : "(NOT " ++ s ++ ")" = "(" ++ ("NOT " ++ (s ++ ")")) := by
    rw [← String.append_assoc, ← String.append_assoc]
    rfl
  rw [split]
  exact keyword plain (.tail _ (.tail _ (.head _)))

theorem existsSubquery (negated : Bool) (takes : Takes query s q (Opens [")"])) :
    Operand (exprStep d read query) ("(" ++ negation negated ++ "EXISTS (" ++ ("SELECT " ++ s) ++ "))")
      (.existsSubquery q negated) := by
  have split : "(" ++ negation negated ++ "EXISTS (" ++ ("SELECT " ++ s) ++ "))"
      = "(" ++ (negation negated ++ ("EXISTS (" ++ ("SELECT " ++ s ++ "))"))) := by
    simp only [String.append_assoc]
  have inner : Takes (statement query "))") ("SELECT " ++ s ++ "))") q (Opens afterExpr) :=
    takes_statement takes (by decide)
  have built := inner.bind_pure (Expr.existsSubquery · negated)
  rw [split]
  cases negated with
  | false =>
    rw [negation, if_neg Bool.false_ne_true, String.empty_append]
    exact keyword built (.tail _ (.head _))
  | true => exact keyword (.present nofun built) (.tail _ (.tail _ (.head _)))

theorem subquery (takes : Takes query s q (Opens [")"])) :
    Operand (exprStep d read query) ("(" ++ ("SELECT " ++ s) ++ ")") (.subquery q) := by
  rw [String.append_assoc, String.append_assoc]
  exact keyword (takes.upTo _ (by decide)) (.head _)

end Operand

end Expressions

end ApproxQuery.Sql
