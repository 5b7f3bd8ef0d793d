import ApproxQuery.Yaml.Cursor
import ApproxQuery.Json.Reader

/-! The text of scalars: plain, between quotes, or as a block. Line breaks inside a scalar are
folded: one becomes a blank, and of several the first is dropped. -/
namespace ApproxQuery.Yaml

/-- What stands between two lines that were separated by a first break and further ones. -/
def folded (first further : List Char) : List Char :=
  match first with
  | '\n' :: _ => if further.isEmpty then [' '] else further
  | _ => first ++ further

/-- White space inside a scalar: blanks on one line, or line breaks with the blanks around them
dropped. -/
structure Gap where
  blanks : List Char := []
  first : List Char := []
  further : List Char := []
  /-- A line break was met. -/
  broken : Bool := false

def Gap.text (g : Gap) : List Char := if g.broken then folded g.first g.further else g.blanks

def Gap.addBreak (g : Gap) (text : List Char) : Gap :=
  if g.broken then { g with further := g.further ++ text }
  else { g with blanks := [], first := text, broken := true }

def Gap.addBlank (g : Gap) (c : Char) : Gap :=
  if g.broken then g else { g with blanks := g.blanks ++ [c] }

/-- Takes blanks and breaks. After a break no tab may stand left of the given column. -/
def takeGap (margin : Nat) : Nat → Gap → Cursor → Except Fault (Gap × Cursor)
  | 0, g, c => .ok (g, c)
  | fuel + 1, g, c =>
    match c.rest with
    | [] => .ok (g, c)
    | x :: _ =>
      if isBlank x then
        if g.broken && x = '\t' && c.column < margin then .error .tabIndent
        else takeGap margin fuel (g.addBlank x) (c.skip 1)
      else if isBreak x then
        let (text, c) := c.takeBreak
        takeGap margin fuel (g.addBreak text) c
      else .ok (g, c)

/-- Characters that end a plain scalar inside brackets. -/
def isFlowMark (c : Char) : Bool :=
  c = ',' || c = '[' || c = ']' || c = '\x7b' || c = '\x7d'

/-- The next stretch of a plain scalar without white space. -/
def takePlainWord (inFlow : Bool) : Nat → List Char → Cursor → Except Fault (List Char × Cursor)
  | 0, word, c => .ok (word, c)
  | fuel + 1, word, c =>
    match c.rest with
    | [] => .ok (word, c)
    | x :: after =>
      if isBlank x || isBreak x then .ok (word, c)
      else if inFlow && x = ':' && (after.head?.any fun y => isFlowMark y || y = '?') then
        .error .unexpectedCharacter
      else if (x = ':' && endsWord after) || (inFlow && isFlowMark x) then .ok (word, c)
      else takePlainWord inFlow fuel (word ++ [x]) (c.skip 1)

/-- The rest of a plain scalar. It ends before a comment, a document mark, an indicator, or a line
that is not indented enough; a gap in front of its end is not part of it. The answer says too
whether a line break came last. -/
def takePlain (inFlow : Bool) (margin : Nat) :
    Nat → List Char → Gap → Cursor → Except Fault (List Char × Bool × Cursor)
  | 0, text, gap, c => .ok (text, gap.broken, c)
  | fuel + 1, text, gap, c => do
    if c.atSomeDocumentMark || c.rest.head? = some '#' then return (text, gap.broken, c)
    let (word, c) ← takePlainWord inFlow (fuel + 1) [] c
    let (text, gap) := if word.isEmpty then (text, gap) else (text ++ gap.text ++ word, {})
    match c.rest with
    | [] => return (text, gap.broken, c)
    | x :: _ =>
      if !(isBlank x || isBreak x) then return (text, gap.broken, c)
      let (gap, c) ← takeGap margin (fuel + 1) gap c
      if !inFlow && c.column < margin then return (text, gap.broken, c)
      takePlain inFlow margin fuel text gap c

/-- Escapes of one character after the backslash. -/
def escapes : List (Char × Char) :=
  [('0', '\x00'), ('a', '\x07'), ('b', '\x08'), ('t', '\t'), ('\t', '\t'), ('n', '\n'),
    ('v', '\x0b'), ('f', '\x0c'), ('r', '\r'), ('e', '\x1b'), (' ', ' '), ('\x22', '\x22'),
    ('/', '/'), ('\\', '\\'), ('N', '\u0085'), ('_', '\u00a0'), ('L', '\u2028'), ('P', '\u2029')]

/-- Escapes with a number of hexadecimal digits. -/
def numberedEscapes : List (Char × Nat) := [('x', 2), ('u', 4), ('U', 8)]

/-- The character that hexadecimal digits stand for. -/
def charOfHex (digits : List Char) : Except Fault Char :=
  match digits.foldlM (fun n c => (Json.hexValue? c).map fun d => n * 16 + d) 0 with
  | some n => if n.isValidChar then .ok (Char.ofNat n) else .error .badEscape
  | none => .error .badEscape

/-- An escape after its backslash. -/
def takeEscape (c : Cursor) : Except Fault (Char × Cursor) :=
  match c.rest with
  | [] => .error .badEscape
  | x :: after =>
    match escapes.lookup x, numberedEscapes.lookup x with
    | some value, _ => .ok (value, c.skip 1)
    | none, some count =>
      if after.length < count then .error .badEscape
      else do return (← charOfHex (after.take count), c.skip (count + 1))
    | none, none => .error .badEscape

/-- The next stretch of a quoted scalar without white space. The answer says too whether it ends
with a break that a backslash hides. -/
def takeQuotedWord (quote : Char) :
    Nat → List Char → Cursor → Except Fault (List Char × Bool × Cursor)
  | 0, word, c => .ok (word, false, c)
  | fuel + 1, word, c =>
    match c.rest with
    | [] => .ok (word, false, c)
    | x :: after =>
      if isBlank x || isBreak x then .ok (word, false, c)
      else if x = quote then
        if quote = '\x27' && after.head? = some quote then
          takeQuotedWord quote fuel (word ++ [quote]) (c.skip 2)
        else .ok (word, false, c)
      else if quote = '\x22' && x = '\\' then
        if !after.isEmpty && endsLine after then .ok (word, true, (c.skip 1).skipBreak)
        else do
          let (value, c) ← takeEscape (c.skip 1)
          takeQuotedWord quote fuel (word ++ [value]) c
      else takeQuotedWord quote fuel (word ++ [x]) (c.skip 1)

/-- The rest of a quoted scalar after its opening quote, up to and with the closing one. -/
def takeQuoted (quote : Char) : Nat → List Char → Cursor → Except Fault (List Char × Cursor)
  | 0, _, _ => .error .unclosedQuote
  | fuel + 1, text, c => do
    if c.atSomeDocumentMark || c.rest.isEmpty then throw .unclosedQuote
    let (word, hidden, c) ← takeQuotedWord quote (fuel + 1) [] c
    if c.rest.head? = some quote then return (text ++ word, c.skip 1)
    let (gap, c) ← takeGap 0 (fuel + 1) { broken := hidden } c
    takeQuoted quote fuel (text ++ word ++ gap.text) c

/-- What is done with the breaks at the end of a block. -/
inductive Chomping where
  | strip | clip | keep
deriving DecidableEq, Repr

/-- The line breaks in front of a line of a block, and the indentation of that line. -/
structure Lead where
  breaks : List Char
  indent : Nat
  cursor : Cursor

/-- Takes empty lines and indentation. An indentation of zero is yet to be found: that of the
deepest of the lines, at least one more than around the block. -/
def takeLead (least indent : Nat) : Nat → Nat → List Char → Cursor → Except Fault Lead
  | 0, _, breaks, c => .ok ⟨breaks, indent, c⟩
  | fuel + 1, deepest, breaks, c =>
    let spaces := (c.rest.takeWhile fun x => x = ' ').length
    let c := c.skip (if indent = 0 then spaces else min spaces (indent - c.column))
    let deepest := max deepest c.column
    if (indent = 0 || c.column < indent) && c.rest.head? = some '\t' then .error .tabIndent
    else if !c.rest.isEmpty && endsLine c.rest then
      let (text, c) := c.takeBreak
      takeLead least indent fuel deepest (breaks ++ text) c
    else .ok ⟨breaks, if indent = 0 then max deepest (max least 1) else indent, c⟩

/-- The lines of a block. Lines that begin with a blank are not folded. The answer is the text, and
the first and the further breaks that follow it. -/
def takeBlockLines (folds : Bool) (least : Nat) :
    Nat → Lead → List Char → List Char → Bool → Except Fault (List Char × List Char × Lead)
  | 0, lead, text, first, _ => .ok (text, first, lead)
  | fuel + 1, lead, text, first, afterBlank =>
    let c := lead.cursor
    if c.column ≠ lead.indent || c.rest.isEmpty then .ok (text, first, lead)
    else do
      let blank := c.rest.head?.any isBlank
      let gap := if folds && !afterBlank && !blank then folded first lead.breaks
        else first ++ lead.breaks
      let (line, c) := c.takeWhile fun x => !isBreak x
      let (first, c) := c.takeBreak
      let next ← takeLead least lead.indent (fuel + 1) 0 [] c
      takeBlockLines folds least fuel next (text ++ gap ++ line) first blank

def chompingOf (c : Char) : Option Chomping :=
  if c = '+' then some .keep else if c = '-' then some .strip else none

/-- A chomping mark, if one stands here. -/
def takeChomping (c : Cursor) : Option Chomping × Cursor :=
  match c.rest.head?.bind chompingOf with
  | some chomping => (some chomping, c.skip 1)
  | none => (none, c)

/-- An indentation digit, if one stands here; there is no indentation by zero. -/
def takeIndent (c : Cursor) : Except Fault (Option Nat × Cursor) :=
  match c.rest.head?.filter Char.isDigit with
  | some '0' => .error .zeroIndent
  | some d => .ok (some (d.toNat - '0'.toNat), c.skip 1)
  | none => .ok (none, c)

/-- The marks after the indicator of a block, in either order. -/
def takeBlockMarks (c : Cursor) : Except Fault (Chomping × Option Nat × Cursor) := do
  match takeChomping c with
  | (some chomping, c) => do
    let (indent, c) ← takeIndent c
    return (chomping, indent, c)
  | (none, c) => do
    let (indent, c) ← takeIndent c
    match indent with
    | some _ =>
      let (chomping, c) := takeChomping c
      return (chomping.getD .clip, indent, c)
    | none => return (.clip, none, c)

/-- A block scalar after its indicator, inside a block indented by `outer`. -/
def takeBlock (folds : Bool) (outer : Int) (bound : Nat) (c : Cursor) :
    Except Fault (List Char × Cursor) := do
  let (chomping, increment, c) ← takeBlockMarks c
  let c := (c.skipWhile isBlank).skipComment
  if !endsLine c.rest then throw .unexpectedCharacter
  let c := c.skipBreak
  let least := (outer + 1).toNat
  let indent := match increment with
    | some n => if 0 ≤ outer then outer.toNat + n else n
    | none => 0
  let lead ← takeLead least indent bound 0 [] c
  let (text, first, lead) ← takeBlockLines folds least bound lead [] [] false
  let tail := match chomping with
    | .strip => []
    | .clip => first
    | .keep => first ++ lead.breaks
  return (text ++ tail, lead.cursor)

end ApproxQuery.Yaml
