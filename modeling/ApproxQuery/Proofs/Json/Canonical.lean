import ApproxQuery.Json.Reader
import ApproxQuery.Json.Text
import Mathlib.Data.List.Basic

/-! Canonical text is read as the data it was written from, floats apart, as far as the nesting that the
reader allows. -/
namespace ApproxQuery

/-- Data that JSON text keeps: no floats, no leaves that only another format gives, and integers of 64
bits, with or without sign. -/
inductive Data.Exact : Data → Prop
  | null : Exact .null
  | bool (value : Bool) : Exact (.bool value)
  | int {n : Int} (low : -(UInt64.size / 2 : Nat) ≤ n) (high : n < UInt64.size) : Exact (.int n)
  | str (text : String) : Exact (.str text)
  | list {items : List Data} (each : ∀ d ∈ items, Exact d) : Exact (.list items)
  | record {fields : List (String × Data)} (each : ∀ field ∈ fields, Exact field.2) : Exact (.record fields)

namespace Data

mutual

/-- How deep brackets nest in the text. -/
def nesting : Data → Nat
  | .list items => nestingOfItems items + 1
  | .record fields => nestingOfFields fields + 1
  | .tagged content => content.nesting
  | _ => 0

def nestingOfItems : List Data → Nat
  | [] => 0
  | d :: rest => max d.nesting (nestingOfItems rest)

def nestingOfFields : List (String × Data) → Nat
  | [] => 0
  | (_, d) :: rest => max d.nesting (nestingOfFields rest)

end

theorem nestingOfItems_le {items : List Data} {bound : Nat} :
    nestingOfItems items ≤ bound ↔ ∀ d ∈ items, d.nesting ≤ bound := by
  induction items with
  | nil => simp [nestingOfItems]
  | cons d rest ih => rw [nestingOfItems, Nat.max_le, ih, List.forall_mem_cons]

theorem nestingOfFields_le {fields : List (String × Data)} {bound : Nat} :
    nestingOfFields fields ≤ bound ↔ ∀ field ∈ fields, field.2.nesting ≤ bound := by
  induction fields with
  | nil => simp [nestingOfFields]
  | cons field rest ih => rw [nestingOfFields, Nat.max_le, ih, List.forall_mem_cons]

end Data

namespace Json

section Numbers

theorem digitValue?_of_isDigit {c : Char} (digit : c.isDigit = true) :
    Decimal.digitValue? c = some (c.toNat - '0'.toNat) := by
  rw [Decimal.digitValue?, if_pos]
  simpa [Char.isDigit, Char.le_def] using digit

theorem digitValue?_of_not_isDigit {c : Char} (other : c.isDigit = false) :
    Decimal.digitValue? c = none := by
  rw [Decimal.digitValue?, if_neg]
  simpa [Char.isDigit, Char.le_def] using other

/-- A run of digits is taken up to the first other character. -/
theorem takeDigits_go {digits rest : List Char} (all : ∀ c ∈ digits, c.isDigit = true)
    (ends : ∀ c ∈ rest.head?, c.isDigit = false) (count value : Nat) :
    Decimal.takeDigits.go count value (digits ++ rest)
      = (count + digits.length, Nat.ofDigitChars 10 digits value, rest) := by
  induction digits generalizing count value with
  | nil =>
    cases rest with
    | nil => rfl
    | cons c rest =>
      have other := digitValue?_of_not_isDigit (ends c rfl)
      simp [Decimal.takeDigits.go, other, Nat.ofDigitChars]
  | cons d digits ih =>
    have digit := digitValue?_of_isDigit (all d List.mem_cons_self)
    have later := ih (fun c member => all c (List.mem_cons_of_mem _ member))
    rw [List.cons_append, Decimal.takeDigits.go, digit]
    simp only [later, Nat.ofDigitChars_cons, List.length_cons]
    rw [Nat.mul_comm 10 value, Nat.add_assoc, Nat.add_comm 1]

/-- A number is written without superfluous zeros. -/
theorem head?_toDigits {n : Nat} (positive : 0 < n) : (Nat.toDigits 10 n).head? ≠ some '0' := by
  induction n using Nat.strongRecOn with
  | ind n ih =>
    by_cases small : n < 10
    · have digits : ∀ k < 10, 0 < k → (Nat.toDigits 10 k).head? ≠ some '0' := by decide
      exact digits n small positive
    · have large : 10 ≤ n := Nat.le_of_not_lt small
      rw [Nat.toDigits_of_base_le (by decide) large,
        List.head?_append_of_ne_nil _ Nat.toDigits_ne_nil]
      exact ih (n / 10) (Nat.div_lt_self positive (by decide)) (Nat.div_pos large (by decide))

/-- What may follow a value: the end, a comma, or a closing bracket. -/
def Ends (rest : List Char) : Prop := ∀ c ∈ rest.head?, c ∈ [',', ']', '\x7d']

theorem number_digitText {negative : Bool} {n : Nat} {d : Data} {rest : List Char} (ends : Ends rest)
    (kept : integer negative n = .ok d) :
    number negative ((Decimal.digitText n).toList ++ rest) = .ok (d, rest) := by
  have others : ∀ c ∈ [',', ']', '\x7d'], c.isDigit = false ∧ c ≠ '.' ∧ c ≠ 'e' ∧ c ≠ 'E' := by
    simp [Char.isDigit]
  have digits : ∀ c ∈ Nat.toDigits 10 n, c.isDigit = true := fun c member =>
    Nat.isDigit_of_mem_toDigits (by decide) (by decide) member
  have taken : Decimal.takeDigits (Nat.toDigits 10 n ++ rest) = ((Nat.toDigits 10 n).length, n, rest) := by
    rw [Decimal.takeDigits, takeDigits_go digits fun c first => (others c (ends c first)).1,
      Nat.ofDigitChars_toDigits (by decide) (by decide), Nat.zero_add]
  have some : (Nat.toDigits 10 n).length ≠ 0 := by simp [Nat.toDigits_ne_nil]
  have plain : ¬ ((Nat.toDigits 10 n).length > 1 ∧ (Nat.toDigits 10 n ++ rest).head? = Option.some '0') := by
    rintro ⟨long, zero⟩
    rw [List.head?_append_of_ne_nil _ Nat.toDigits_ne_nil] at zero
    have positive : 0 < n := by
      rcases Nat.eq_zero_or_pos n with rfl | positive
      · exact absurd long (by decide)
      · exact positive
    exact head?_toDigits positive zero
  rw [Decimal.digitText, String.toList_ofList, number]
  simp only [taken, some, plain, Bool.or_eq_true, Bool.and_eq_true, decide_eq_true_eq, or_self, if_false]
  cases rest with
  | nil => simp [number.finish, kept, bind, Except.bind, pure, Except.pure]
  | cons c rest =>
    obtain ⟨_, point, small, large⟩ := others c (ends c rfl)
    simp [number.finish, kept, bind, Except.bind, pure, Except.pure, point, small, large]
    trace_state

end Numbers

section Strings

theorem hexValue?_hexDigit : ∀ n < 16, hexValue? (hexDigit n) = some n := by decide

private theorem escaped_control {c : Char} (control : c.toNat < 32) (rest : List Char) :
    escaped ('u' :: '0' :: '0' :: hexDigit (c.toNat / 16) :: hexDigit (c.toNat % 16) :: rest)
      = .ok (c, rest) := by
  have high := hexValue?_hexDigit (c.toNat / 16) (by omega)
  have low := hexValue?_hexDigit (c.toNat % 16) (by omega)
  have zero : hexValue? '0' = some 0 := rfl
  have unit : c.toNat / 16 * 16 + c.toNat % 16 = c.toNat := Nat.div_add_mod' _ _
  have plane : ¬ 0xD800 ≤ c.toNat := by omega
  have plane' : ¬ 0xDC00 ≤ c.toNat := by omega
  simp [escaped, hexUnit, zero, high, low, unit, plane, plane', bind, Except.bind]

/-- A character stands for itself, or an escape for it. -/
theorem escape_cases (c : Char) :
    (escape c = [c] ∧ c ≠ '\x22' ∧ c ≠ '\\' ∧ ¬ c.toNat < 32)
      ∨ ∃ tail, escape c = '\\' :: tail ∧ ∀ rest, escaped (tail ++ rest) = .ok (c, rest) := by
  unfold escape
  split
  · next quote =>
    subst quote
    exact .inr ⟨_, rfl, fun rest => rfl⟩
  split
  · next backslash =>
    subst backslash
    exact .inr ⟨_, rfl, fun rest => rfl⟩
  split
  · next newline =>
    subst newline
    exact .inr ⟨_, rfl, fun rest => rfl⟩
  split
  · next carriage =>
    subst carriage
    exact .inr ⟨_, rfl, fun rest => rfl⟩
  split
  · next tab =>
    subst tab
    exact .inr ⟨_, rfl, fun rest => rfl⟩
  split
  · next backspace =>
    have named : c = '\x08' := Char.toNat_inj.mp backspace
    subst named
    exact .inr ⟨_, rfl, fun rest => rfl⟩
  split
  · next feed =>
    have named : c = '\x0c' := Char.toNat_inj.mp feed
    subst named
    exact .inr ⟨_, rfl, fun rest => rfl⟩
  split
  · next control => exact .inr ⟨_, rfl, escaped_control control⟩
  · next quote backslash _ _ _ _ _ printed => exact .inl ⟨rfl, quote, backslash, printed⟩

/-- What is written for a character is taken for it. -/
theorem stringTail_escape (c : Char) (fuel : Nat) (gathered rest : List Char) :
    stringTail (fuel + 1) gathered (escape c ++ rest) = stringTail fuel (c :: gathered) rest := by
  rcases escape_cases c with ⟨same, quote, backslash, printed⟩ | ⟨tail, same, back⟩
  · rw [same, List.singleton_append, stringTail, if_neg quote, if_neg backslash, if_neg printed]
  · have other : '\\' ≠ '\x22' := by decide
    rw [same, List.cons_append, stringTail, if_neg other, if_pos rfl, back]
    rfl

theorem stringTail_quoted (cs gathered rest : List Char) {fuel : Nat} (enough : cs.length < fuel) :
    stringTail fuel gathered (cs.flatMap escape ++ '\x22' :: rest)
      = .ok (String.ofList (gathered.reverse ++ cs), rest) := by
  induction cs generalizing gathered fuel with
  | nil =>
    cases fuel with
    | zero => exact absurd enough (Nat.not_lt_zero _)
    | succ fuel => simp [stringTail]
  | cons c cs ih =>
    cases fuel with
    | zero => exact absurd enough (Nat.not_lt_zero _)
    | succ fuel =>
      rw [List.flatMap_cons, List.append_assoc, stringTail_escape, ih _ (Nat.lt_of_succ_lt_succ enough),
        List.reverse_cons, List.append_assoc, List.singleton_append]

/-- A string is read behind its opening quote. -/
theorem stringTail_text (s : String) (rest : List Char) :
    stringTail ((s.toList.flatMap escape ++ '\x22' :: rest).length + 1) []
      (s.toList.flatMap escape ++ '\x22' :: rest) = .ok (s, rest) := by
  have filled (c : Char) : 1 ≤ (escape c).length := by
    rcases escape_cases c with ⟨same, _⟩ | ⟨tail, same, _⟩ <;> simp [same]
  have longer : s.toList.length ≤ (s.toList.flatMap escape).length := by
    induction s.toList with
    | nil => exact Nat.zero_le _
    | cons c cs ih =>
      rw [List.flatMap_cons, List.length_append, List.length_cons]
      have own := filled c
      omega
  rw [stringTail_quoted _ _ _ (by rw [List.length_append]; omega), List.reverse_nil, List.nil_append,
    String.ofList_toList]

end Strings

section Values

/-- With what no number begins that has no sign. -/
private def marks : List Char := ['\x22', '\x7b', '[', 't', 'f', 'n', '-']

private theorem digit_cases {c : Char} (digit : c.isDigit = true) :
    c ∉ marks ∧ isBlank c = false ∧ c ≠ ']' := by
  have bounds : 48 ≤ c.toNat ∧ c.toNat ≤ 57 := by simpa [Char.isDigit, UInt32.le_iff_toNat_le] using digit
  have all : ∀ n < 58, 48 ≤ n → Char.ofNat n ∉ marks ∧ isBlank (Char.ofNat n) = false
      ∧ Char.ofNat n ≠ ']' := by decide
  have own := all c.toNat (Nat.lt_succ_of_le bounds.2) bounds.1
  rwa [c.ofNat_toNat] at own

private theorem value_unsigned {c : Char} (other : c ∉ marks) (fuel depth : Nat) (rest : List Char) :
    value (fuel + 1) depth (c :: rest) = number false (c :: rest) := by
  simp only [marks, List.mem_cons, List.not_mem_nil, not_or, or_false] at other
  obtain ⟨quote, brace, bracket, true', false', null', sign⟩ := other
  simp [value, quote, brace, bracket, true', false', null', sign]

private theorem digitText_cons (n : Nat) : ∃ c cs, (Decimal.digitText n).toList = c :: cs ∧ c.isDigit = true := by
  rw [Decimal.digitText, String.toList_ofList]
  obtain ⟨c, cs, characters⟩ := List.exists_cons_of_ne_nil (Nat.toDigits_ne_nil (n := n) (b := 10))
  refine ⟨c, cs, characters, Nat.isDigit_of_mem_toDigits (b := 10) (n := n) (by decide) (by decide) ?_⟩
  rw [characters]
  exact List.mem_cons_self

/-- A value begins with neither a blank nor a bracket that closes. -/
theorem text_head {d : Data} (exact : d.Exact) :
    ∃ c cs, (text d).toList = c :: cs ∧ isBlank c = false ∧ c ≠ ']' := by
  cases exact with
  | null => exact ⟨'n', ['u', 'l', 'l'], rfl, by decide⟩
  | bool value =>
    cases value with
    | false => exact ⟨'f', ['a', 'l', 's', 'e'], rfl, by decide⟩
    | true => exact ⟨'t', ['r', 'u', 'e'], rfl, by decide⟩
  | @int n low high =>
    by_cases negative : n < 0
    · refine ⟨'-', (Decimal.digitText n.natAbs).toList, ?_, by decide⟩
      rw [text, int, if_pos negative, String.toList_append]
      rfl
    · obtain ⟨c, cs, characters, digit⟩ := digitText_cons n.natAbs
      refine ⟨c, cs, ?_, (digit_cases digit).2⟩
      rw [text, int, if_neg negative, String.empty_append, characters]
  | str s =>
    refine ⟨'\x22', s.toList.flatMap escape ++ ['\x22'], ?_, by decide⟩
    rw [text, quoted, String.toList_ofList]
  | @list items each =>
    refine ⟨'[', (commas (texts items)).toList ++ [']'], ?_, by decide⟩
    simp [text, String.toList_append]
  | @record fields each =>
    refine ⟨'\x7b', (commas (fieldTexts fields)).toList ++ ['\x7d'], ?_, by decide⟩
    simp [text, String.toList_append]

/-- Behind a value that has been read, whatever may follow it. -/
def Reads (d : Data) : Prop :=
  ∀ {fuel depth : Nat} {rest : List Char}, 2 * (text d).length ≤ fuel → d.nesting ≤ depth → Ends rest →
    value fuel depth ((text d).toList ++ rest) = .ok (d, rest)

private theorem skipBlanks_cons {c : Char} (rest : List Char) (solid : isBlank c = false) :
    skipBlanks (c :: rest) = c :: rest := by
  rw [skipBlanks, List.dropWhile_cons_of_neg (by simp [solid])]

private theorem skipBlanks_text {d : Data} (exact : d.Exact) (rest : List Char) :
    skipBlanks ((text d).toList ++ rest) = (text d).toList ++ rest := by
  obtain ⟨c, cs, characters, solid, _⟩ := text_head exact
  rw [characters, List.cons_append, skipBlanks_cons _ solid]

theorem length_text_pos {d : Data} (exact : d.Exact) : 0 < (text d).length := by
  obtain ⟨c, cs, characters, _⟩ := text_head exact
  rw [← String.length_toList, characters]
  exact Nat.succ_pos _

private theorem reads_of_step {d : Data} (exact : d.Exact) (step : ∀ {fuel depth : Nat} {rest : List Char},
    2 * (text d).length ≤ fuel + 1 → d.nesting ≤ depth → Ends rest →
      value (fuel + 1) depth ((text d).toList ++ rest) = .ok (d, rest)) : Reads d := by
  intro fuel depth rest enough shallow ends
  have positive := length_text_pos exact
  cases fuel with
  | zero => omega
  | succ fuel => exact step enough shallow ends

theorem reads_int {n : Int} (low : -(UInt64.size / 2 : Nat) ≤ n) (high : n < UInt64.size) :
    Reads (.int n) := by
  refine reads_of_step (.int low high) fun {fuel depth rest} _ _ ends => ?_
  rw [text, int]
  by_cases negative : n < 0
  · have kept : integer true n.natAbs = .ok (.int n) := by
      have inside : (0 < n.natAbs && n.natAbs ≤ UInt64.size / 2) = true := by
        rw [Bool.and_eq_true, decide_eq_true_eq, decide_eq_true_eq]
        omega
      rw [integer, if_pos rfl, if_pos inside, Int.ofNat_natAbs_of_nonpos (Int.le_of_lt negative), Int.neg_neg]
    rw [if_pos negative, String.toList_append, List.append_assoc]
    exact number_digitText ends kept
  · have kept : integer false n.natAbs = .ok (.int n) := by
      have whole : (n.natAbs : Int) = n := Int.natAbs_of_nonneg (Int.not_lt.mp negative)
      have inside : n.natAbs < UInt64.size := by omega
      rw [integer, if_neg Bool.false_ne_true, if_pos inside, whole]
    have read := number_digitText ends kept
    obtain ⟨c, cs, characters, digit⟩ := digitText_cons n.natAbs
    rw [if_neg negative, String.empty_append]
    rw [characters, List.cons_append] at read ⊢
    rw [value_unsigned (digit_cases digit).1, read]

private theorem reads_str (s : String) : Reads (.str s) := by
  refine reads_of_step (.str s) fun {fuel depth rest} _ _ _ => ?_
  have characters : (text (.str s)).toList ++ rest
      = '\x22' :: (s.toList.flatMap escape ++ '\x22' :: rest) := by
    rw [text, quoted, String.toList_ofList, List.cons_append, List.append_assoc, List.singleton_append]
  rw [characters, value]
  simp only [stringTail_text, bind, Except.bind, pure, Except.pure]

private theorem skipBlanks_closing {c : Char} (rest : List Char) (closes : c ∈ [',', ']', '\x7d', ':']) :
    skipBlanks (c :: rest) = c :: rest :=
  skipBlanks_cons rest ((by simp [isBlank] : ∀ c ∈ [',', ']', '\x7d', ':'], isBlank c = false) c closes)

private theorem ends_cons {c : Char} {rest : List Char} (closes : c ∈ [',', ']', '\x7d']) :
    Ends (c :: rest) := by
  intro first same
  cases same
  exact closes

/-- A list of texts begins as its first does. -/
private theorem commas_cons (s : String) (rest : List String) : ∃ more, commas (s :: rest) = s ++ more := by
  cases rest with
  | nil => exact ⟨"", String.append_empty.symm⟩
  | cons t rest => exact ⟨"," ++ commas (t :: rest), String.append_assoc⟩

/-- A list of values begins as its first does. -/
private theorem texts_head {d : Data} (exact : d.Exact) (others : List Data) (rest : List Char) :
    ∃ c cs, (commas (texts (d :: others))).toList ++ rest = c :: cs ∧ isBlank c = false ∧ c ≠ ']' := by
  obtain ⟨c, cs, characters, solid, other⟩ := text_head exact
  obtain ⟨more, begins⟩ := commas_cons (text d) (texts others)
  refine ⟨c, cs ++ (more.toList ++ rest), ?_, solid, other⟩
  rw [texts, begins, String.toList_append, characters, List.append_assoc, List.cons_append]

/-- The items of a list are read one after the other, up to the closing bracket. -/
theorem items_texts {d : Data} {others : List Data} (each : ∀ e ∈ d :: others, e.Exact ∧ Reads e)
    {fuel depth : Nat} (rest : List Char) (enough : 2 * (commas (texts (d :: others))).length < fuel)
    (shallow : ∀ e ∈ d :: others, e.nesting ≤ depth) :
    items fuel depth ((commas (texts (d :: others))).toList ++ ']' :: rest) = .ok (d :: others, rest) := by
  induction others generalizing d fuel with
  | nil =>
    cases fuel with
    | zero => omega
    | succ fuel =>
      have ends : Ends (']' :: rest) := ends_cons (by decide)
      have own := (each d List.mem_cons_self).2 (Nat.le_of_lt_succ enough) (shallow d List.mem_cons_self) ends
      have closing : skipBlanks (']' :: rest) = ']' :: rest := skipBlanks_closing rest (by decide)
      change items (fuel + 1) depth ((text d).toList ++ ']' :: rest) = _
      rw [items, own]
      simp only [bind, Except.bind, closing]
  | cons e others ih =>
    cases fuel with
    | zero => omega
    | succ fuel =>
      have split : commas (texts (d :: e :: others)) = text d ++ "," ++ commas (texts (e :: others)) := rfl
      rw [split] at enough ⊢
      simp only [String.length_append] at enough
      have comma : ",".length = 1 := rfl
      have enoughLater : 2 * (commas (texts (e :: others))).length < fuel := by omega
      have later := ih (fun f member => each f (List.mem_cons_of_mem _ member)) enoughLater
        fun f member => shallow f (List.mem_cons_of_mem _ member)
      have ends : Ends (',' :: ((commas (texts (e :: others))).toList ++ ']' :: rest)) := ends_cons (by decide)
      have enoughOwn : 2 * (text d).length ≤ fuel := by omega
      have own := (each d List.mem_cons_self).2 enoughOwn (shallow d List.mem_cons_self) ends
      have characters : (text d ++ "," ++ commas (texts (e :: others))).toList ++ ']' :: rest
          = (text d).toList ++ ',' :: ((commas (texts (e :: others))).toList ++ ']' :: rest) := by
        simp [String.toList_append]
      have solid : skipBlanks ((commas (texts (e :: others))).toList ++ ']' :: rest)
          = (commas (texts (e :: others))).toList ++ ']' :: rest := by
        have exact := (each e (List.mem_cons_of_mem _ List.mem_cons_self)).1
        obtain ⟨c, cs, opens, solid, _⟩ := texts_head exact others (']' :: rest)
        rw [opens, skipBlanks_cons cs solid]
      rw [characters, items, own]
      simp only [bind, Except.bind, skipBlanks_closing _ (by decide : ',' ∈ [',', ']', '\x7d', ':']), solid,
        later]
      rfl

/-- A list of fields begins with a quote. -/
private theorem fieldTexts_head (field : String × Data) (others : List (String × Data)) (rest : List Char) :
    ∃ cs, (commas (fieldTexts (field :: others))).toList ++ rest = '\x22' :: cs := by
  rcases field with ⟨key, d⟩
  obtain ⟨more, begins⟩ := commas_cons (quoted key ++ ":" ++ text d) (fieldTexts others)
  rw [fieldTexts, begins, quoted]
  simp only [String.toList_append, String.toList_ofList, List.cons_append]
  exact ⟨_, rfl⟩

/-- A field is a string, a colon and a value. Behind it stands a brace, or a comma and further fields. -/
private theorem fields_step {key : String} {d : Data} (exact : d.Exact) (reads : Reads d) {fuel depth : Nat}
    {more tail : List Char} (enough : 2 * (text d).length ≤ fuel) (shallow : d.nesting ≤ depth)
    (ends : Ends more) :
    (skipBlanks more = '\x7d' :: tail →
      fields (fuel + 1) depth ((quoted key ++ ":" ++ text d).toList ++ more) = .ok ([(key, d)], tail))
    ∧ (skipBlanks more = ',' :: tail → ∀ {others rest},
      fields fuel depth (skipBlanks tail) = .ok (others, rest) →
        fields (fuel + 1) depth ((quoted key ++ ":" ++ text d).toList ++ more)
          = .ok ((key, d) :: others, rest)) := by
  have characters : (quoted key ++ ":" ++ text d).toList ++ more
      = '\x22' :: (key.toList.flatMap escape ++ '\x22' :: ':' :: ((text d).toList ++ more)) := by
    simp [quoted, String.toList_append]
  have colon : skipBlanks (':' :: ((text d).toList ++ more)) = ':' :: ((text d).toList ++ more) :=
    skipBlanks_closing _ (by decide)
  have read := reads enough shallow ends
  rw [characters, fields]
  simp only [stringTail_text, bind, Except.bind, colon, skipBlanks_text exact, read]
  constructor
  · intro behind
    simp only [behind]
  · intro behind others rest later
    simp only [behind, later, pure, Except.pure]

/-- The fields of a record likewise, up to the closing brace. -/
theorem fields_texts {field : String × Data} {others : List (String × Data)}
    (each : ∀ f ∈ field :: others, f.2.Exact ∧ Reads f.2) {fuel depth : Nat} (rest : List Char)
    (enough : 2 * (commas (fieldTexts (field :: others))).length < fuel)
    (shallow : ∀ f ∈ field :: others, f.2.nesting ≤ depth) :
    fields fuel depth ((commas (fieldTexts (field :: others))).toList ++ '\x7d' :: rest)
      = .ok (field :: others, rest) := by
  induction others generalizing field fuel with
  | nil =>
    rcases field with ⟨key, d⟩
    obtain ⟨exact, reads⟩ : d.Exact ∧ Reads d := each (key, d) List.mem_cons_self
    have written : commas (fieldTexts [(key, d)]) = quoted key ++ ":" ++ text d := rfl
    rw [written] at enough ⊢
    rw [String.length_append] at enough
    cases fuel with
    | zero => omega
    | succ fuel =>
      have ends : Ends ('\x7d' :: rest) := ends_cons (by decide)
      have closing : skipBlanks ('\x7d' :: rest) = '\x7d' :: rest := skipBlanks_closing rest (by decide)
      exact (fields_step exact reads (by omega) (shallow (key, d) List.mem_cons_self) ends).1 closing
  | cons next others ih =>
    rcases field with ⟨key, d⟩
    obtain ⟨exact, reads⟩ : d.Exact ∧ Reads d := each (key, d) List.mem_cons_self
    have written : commas (fieldTexts ((key, d) :: next :: others))
        = quoted key ++ ":" ++ text d ++ "," ++ commas (fieldTexts (next :: others)) := rfl
    rw [written] at enough ⊢
    simp only [String.length_append] at enough
    have comma : ",".length = 1 := rfl
    cases fuel with
    | zero => omega
    | succ fuel =>
      have enoughLater : 2 * (commas (fieldTexts (next :: others))).length < fuel := by omega
      have later := ih (fun f member => each f (List.mem_cons_of_mem _ member)) enoughLater
        fun f member => shallow f (List.mem_cons_of_mem _ member)
      generalize behind : (commas (fieldTexts (next :: others))).toList ++ '\x7d' :: rest = tail at later
      have ends : Ends (',' :: tail) := ends_cons (by decide)
      have behindComma : skipBlanks (',' :: tail) = ',' :: tail := skipBlanks_closing tail (by decide)
      have solid : skipBlanks tail = tail := by
        obtain ⟨cs, quote⟩ := fieldTexts_head next others ('\x7d' :: rest)
        rw [← behind, quote]
        exact skipBlanks_cons cs (by decide)
      have split : (quoted key ++ ":" ++ text d ++ "," ++ commas (fieldTexts (next :: others))).toList
          ++ '\x7d' :: rest = (quoted key ++ ":" ++ text d).toList ++ ',' :: tail := by
        simp [← behind, String.toList_append]
      rw [split]
      apply (fields_step exact reads (by omega) (shallow (key, d) List.mem_cons_self) ends).2 behindComma
      rw [solid]
      exact later

private theorem value_list {fuel depth : Nat} {c : Char} {cs : List Char} (solid : isBlank c = false)
    (other : c ≠ ']') : value (fuel + 1) (depth + 1) ('[' :: c :: cs) = (do
      let (items, rest) ← items fuel depth (c :: cs)
      return (.list items, rest)) := by
  simp [value, skipBlanks_cons cs solid, other]

private theorem value_record {fuel depth : Nat} {c : Char} {cs : List Char} (solid : isBlank c = false)
    (other : c ≠ '\x7d') : value (fuel + 1) (depth + 1) ('\x7b' :: c :: cs) = (do
      let (fields, rest) ← fields fuel depth (c :: cs)
      return (.record fields, rest)) := by
  simp [value, skipBlanks_cons cs solid, other]

/-- Whatever nests no deeper than is allowed is read back from its text. -/
theorem Reads.of_exact {d : Data} (exact : d.Exact) : Reads d := by
  induction exact with
  | null => exact reads_of_step .null fun {fuel depth rest} _ _ _ => rfl
  | bool value =>
    refine reads_of_step (.bool value) fun {fuel depth rest} _ _ _ => ?_
    cases value <;> rfl
  | int low high => exact reads_int low high
  | str s => exact reads_str s
  | @list items each ih =>
    refine reads_of_step (.list each) fun {fuel depth rest} enough shallow _ => ?_
    cases depth with
    | zero => exact absurd shallow (Nat.not_succ_le_zero _)
    | succ depth =>
      cases items with
      | nil => rfl
      | cons d others =>
        have deep := Data.nestingOfItems_le.mp (Nat.le_of_succ_le_succ shallow)
        have both (e) (member : e ∈ d :: others) : e.Exact ∧ Reads e := ⟨each e member, ih e member⟩
        simp only [text, String.length_append] at enough
        have bracket : "[".length = 1 := rfl
        have inside : 2 * (commas (texts (d :: others))).length < fuel := by omega
        have taken := items_texts both rest inside deep
        obtain ⟨c, cs, opens, solid, other⟩ := texts_head (each d List.mem_cons_self) others (']' :: rest)
        have split : (text (.list (d :: others))).toList ++ rest
            = '[' :: ((commas (texts (d :: others))).toList ++ ']' :: rest) := by
          simp [text, String.toList_append]
        rw [opens] at taken
        rw [split, opens, value_list solid other, taken]
        rfl
  | @record entries each ih =>
    refine reads_of_step (.record each) fun {fuel depth rest} enough shallow _ => ?_
    cases depth with
    | zero => exact absurd shallow (Nat.not_succ_le_zero _)
    | succ depth =>
      cases entries with
      | nil => rfl
      | cons field others =>
        have deep := Data.nestingOfFields_le.mp (Nat.le_of_succ_le_succ shallow)
        have both (f) (member : f ∈ field :: others) : f.2.Exact ∧ Reads f.2 := ⟨each f member, ih f member⟩
        simp only [text, String.length_append] at enough
        have brace : "\x7b".length = 1 := rfl
        have inside : 2 * (commas (fieldTexts (field :: others))).length < fuel := by omega
        have taken := fields_texts both rest inside deep
        obtain ⟨cs, opens⟩ := fieldTexts_head field others ('\x7d' :: rest)
        have split : (text (.record (field :: others))).toList ++ rest
            = '\x7b' :: ((commas (fieldTexts (field :: others))).toList ++ '\x7d' :: rest) := by
          simp [text, String.toList_append]
        rw [opens] at taken
        rw [split, opens, value_record (by decide) (by decide), taken]
        rfl

/-- Canonical text is read back where it nests no deeper than the reader allows. -/
theorem parse_text {d : Data} (exact : d.Exact) (shallow : d.nesting ≤ depthLimit) :
    parse (text d) = .ok d := by
  have ends : Ends [] := nofun
  have enough : 2 * (text d).length ≤ 2 * (text d).toList.length + 2 := by
    rw [String.length_toList]
    omega
  have read := Reads.of_exact exact enough shallow ends
  have solid := skipBlanks_text exact []
  rw [List.append_nil] at read solid
  simp only [parse, solid, read]
  rfl

/-- However deep it nests, the text tells the data. -/
theorem text_injective {d e : Data} (exact : d.Exact) (exact' : e.Exact) (same : text d = text e) : d = e := by
  have ends : Ends [] := nofun
  have read := Reads.of_exact exact (Nat.le_refl _) (Nat.le_max_left d.nesting e.nesting) ends
  have read' := Reads.of_exact exact' (Nat.le_refl _) (Nat.le_max_right d.nesting e.nesting) ends
  rw [same, read'] at read
  cases read
  rfl

end Values

end Json

end ApproxQuery
