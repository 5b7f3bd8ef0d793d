import ApproxQuery.Data.Basic
import ApproxQuery.Decimal.Reading

/-! Reads JSON text. Integers of 64 bits stay exact; every other number is the nearest double. -/
namespace ApproxQuery.Json

inductive SyntaxError where
  | malformed
  | numberTooLarge
  | tooDeep
deriving DecidableEq, Repr

def isBlank (c : Char) : Bool := c = ' ' || c = '\n' || c = '\t' || c = '\r'

def skipBlanks (text : List Char) : List Char := text.dropWhile isBlank

def hexValue? (c : Char) : Option Nat :=
  if '0' ≤ c && c ≤ '9' then some (c.toNat - 48)
  else if 'a' ≤ c && c ≤ 'f' then some (c.toNat - 87)
  else if 'A' ≤ c && c ≤ 'F' then some (c.toNat - 55)
  else none

/-- Four hexadecimal digits. -/
def hexUnit : List Char → Except SyntaxError (Nat × List Char)
  | a :: b :: c :: d :: rest =>
    match hexValue? a, hexValue? b, hexValue? c, hexValue? d with
    | some a, some b, some c, some d => .ok (((a * 16 + b) * 16 + c) * 16 + d, rest)
    | _, _, _, _ => .error .malformed
  | _ => .error .malformed

/-- The character of an escape after its backslash. Code points above the first plane take two
escapes, a high and a low unit. -/
def escaped : List Char → Except SyntaxError (Char × List Char)
  | 'u' :: rest => do
    let (unit, rest) ← hexUnit rest
    if 0xDC00 ≤ unit && unit < 0xE000 then .error .malformed
    else if 0xD800 ≤ unit && unit < 0xDC00 then
      match rest with
      | '\\' :: 'u' :: rest => do
        let (low, rest) ← hexUnit rest
        if 0xDC00 ≤ low && low < 0xE000 then
          .ok (Char.ofNat (0x10000 + (unit - 0xD800) * 0x400 + (low - 0xDC00)), rest)
        else .error .malformed
      | _ => .error .malformed
    else .ok (Char.ofNat unit, rest)
  | c :: rest =>
    match [('\x22', '\x22'), ('\\', '\\'), ('/', '/'), ('b', '\x08'), ('f', '\x0c'), ('n', '\n'),
        ('r', '\r'), ('t', '\t')].lookup c with
    | some value => .ok (value, rest)
    | none => .error .malformed
  | [] => .error .malformed

/-- The rest of a string after its opening quote, gathered in reverse. -/
def stringTail : Nat → List Char → List Char → Except SyntaxError (String × List Char)
  | 0, _, _ => .error .malformed
  | _ + 1, _, [] => .error .malformed
  | fuel + 1, gathered, c :: rest =>
    if c = '\x22' then .ok (String.ofList gathered.reverse, rest)
    else if c = '\\' then do
      let (value, rest) ← escaped rest
      stringTail fuel (value :: gathered) rest
    else if c.toNat < 32 then .error .malformed
    else stringTail fuel (c :: gathered) rest

/-- An integer that fits 64 bits, with or without sign; any other becomes a double. -/
def integer (negative : Bool) (value : Nat) : Except SyntaxError Data :=
  if negative then
    if 0 < value && value ≤ UInt64.size / 2 then .ok (.int (-value))
    else double ⟨true, value, 0⟩
  else if value < UInt64.size then .ok (.int value)
  else double ⟨false, value, 0⟩
where
  double (w : Decimal.Written) : Except SyntaxError Data :=
    if w.nearest.isFinite then .ok (.float w.nearest) else .error .numberTooLarge

/-- A number after its sign: no superfluous leading zero, digits on both sides of a point. -/
def number (negative : Bool) (text : List Char) : Except SyntaxError (Data × List Char) := do
  let (count, value, rest) := Decimal.takeDigits text
  if count = 0 || (count > 1 && text.head? = some '0') then .error .malformed
  let (places, value, rest) ← match rest with
    | '.' :: after =>
      match Decimal.takeDigits after with
      | (0, _, _) => .error .malformed
      | (count, tail, rest) => .ok (count, value * Nat.pow 10 count + tail, rest)
    | rest => .ok (0, value, rest)
  match rest with
  | c :: _ =>
    if c = 'e' || c = 'E' then
      match Decimal.takeExponent rest with
      | some (power, rest) => return (← integer.double ⟨negative, value, power - places⟩, rest)
      | none => .error .malformed
    else finish places value rest
  | [] => finish places value rest
where
  finish (places value : Nat) (rest : List Char) : Except SyntaxError (Data × List Char) := do
    if places = 0 then return (← integer negative value, rest)
    else return (← integer.double ⟨negative, value, -(places : Int)⟩, rest)

/-- A fixed word. -/
def word (expected : List Char) (value : Data) (text : List Char) :
    Except SyntaxError (Data × List Char) :=
  if expected.isPrefixOf text then .ok (value, text.drop expected.length) else .error .malformed

mutual

/-- A value at the start of a text without leading blanks. The first count bounds the work by
the length of the text, the second the nesting. -/
def value : Nat → Nat → List Char → Except SyntaxError (Data × List Char)
  | 0, _, _ => .error .malformed
  | fuel + 1, depth, text =>
    match text with
    | '\x22' :: rest => do
      let (s, rest) ← stringTail (rest.length + 1) [] rest
      return (.str s, rest)
    | '\x7b' :: rest =>
      match depth with
      | 0 => .error .tooDeep
      | depth + 1 =>
        match skipBlanks rest with
        | '\x7d' :: rest => .ok (.record [], rest)
        | rest => do
          let (fields, rest) ← fields fuel depth rest
          return (.record fields, rest)
    | '[' :: rest =>
      match depth with
      | 0 => .error .tooDeep
      | depth + 1 =>
        match skipBlanks rest with
        | ']' :: rest => .ok (.list [], rest)
        | rest => do
          let (items, rest) ← items fuel depth rest
          return (.list items, rest)
    | 't' :: _ => word ['t', 'r', 'u', 'e'] (.bool true) text
    | 'f' :: _ => word ['f', 'a', 'l', 's', 'e'] (.bool false) text
    | 'n' :: _ => word ['n', 'u', 'l', 'l'] .null text
    | '-' :: rest => number true rest
    | text => number false text

/-- The items of a list and its closing bracket. -/
def items : Nat → Nat → List Char → Except SyntaxError ((List Data) × List Char)
  | 0, _, _ => .error .malformed
  | fuel + 1, depth, text => do
    let (item, rest) ← value fuel depth text
    match skipBlanks rest with
    | ',' :: rest => do
      let (more, rest) ← items fuel depth (skipBlanks rest)
      return (item :: more, rest)
    | ']' :: rest => .ok ([item], rest)
    | _ => .error .malformed

/-- The fields of a record and its closing brace. -/
def fields : Nat → Nat → List Char → Except SyntaxError ((List (String × Data)) × List Char)
  | 0, _, _ => .error .malformed
  | fuel + 1, depth, text =>
    match text with
    | '\x22' :: rest => do
      let (key, rest) ← stringTail (rest.length + 1) [] rest
      match skipBlanks rest with
      | ':' :: rest => do
        let (content, rest) ← value fuel depth (skipBlanks rest)
        match skipBlanks rest with
        | ',' :: rest => do
          let (more, rest) ← fields fuel depth (skipBlanks rest)
          return ((key, content) :: more, rest)
        | '\x7d' :: rest => .ok ([(key, content)], rest)
        | _ => .error .malformed
      | _ => .error .malformed
    | _ => .error .malformed

end

/-- Containers nest at most this deep. -/
def depthLimit : Nat := 127

/-- A whole text: one value, with blanks around it. -/
def parse (text : String) : Except SyntaxError Data :=
  let chars := text.toList
  match value (2 * chars.length + 2) depthLimit (skipBlanks chars) with
  | .ok (d, rest) => if (skipBlanks rest).isEmpty then .ok d else .error .malformed
  | .error e => .error e

end ApproxQuery.Json
