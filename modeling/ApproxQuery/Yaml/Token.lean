import ApproxQuery.Data.Basic
import ApproxQuery.Yaml.Scalar

/-! The tokens of a text. Indentation becomes opening and closing tokens of blocks, and the key of
a mapping gets its token once the colon after it is met. -/
namespace ApproxQuery.Yaml

inductive Token where
  | version (major minor : Nat)
  | handle (handle : String) (expansion : Tag)
  | documentStart
  | documentEnd
  | blockListStart
  | blockMappingStart
  | blockEnd
  | flowListStart
  | flowListEnd
  | flowMappingStart
  | flowMappingEnd
  | blockEntry
  | flowEntry
  | key
  | value
  | aliasOf (name : String)
  | anchor (name : String)
  | tag (handle : String) (suffix : Tag)
  | scalar (text : String) (style : ScalarStyle)
  | streamEnd
deriving DecidableEq, Repr

/-- A place where a key without its own indicator may have begun. It has to be followed by a colon
on the same line, within 1024 bytes. -/
structure KeyPlace where
  /-- The block cannot go on with anything but a key. -/
  required : Bool
  /-- How many tokens come before. -/
  position : Nat
  line : Nat
  column : Nat
  index : Nat

/-- A text that has been read in part. -/
structure Scanner where
  cursor : Cursor
  /-- The latest first. -/
  tokens : List Token
  /-- How many there are. -/
  count : Nat
  /-- The indentation of the block at hand; outside all blocks it is -1. -/
  indent : Int
  /-- The indentation of the blocks around it. -/
  outer : List Int
  keyPlace : Option KeyPlace
  /-- The key places outside each of the brackets that are open. -/
  brackets : List (Option KeyPlace)
  keyAllowed : Bool

namespace Scanner

def start (text : List Char) : Scanner := ⟨.start text, [], 0, -1, [], none, [], true⟩

def inFlow (s : Scanner) : Bool := !s.brackets.isEmpty

def push (s : Scanner) (t : Token) : Scanner :=
  { s with tokens := t :: s.tokens, count := s.count + 1 }

/-- Puts a token after the first `position` ones. -/
def insertAt (s : Scanner) (position : Nat) (t : Token) : Scanner :=
  let later := s.count - position
  { s with
    tokens := s.tokens.take later ++ t :: s.tokens.drop later
    count := s.count + 1 }

/-- Goes on by some characters of an indicator. -/
def skip (s : Scanner) (count : Nat) : Scanner := { s with cursor := s.cursor.skip count }

/-- A key place no longer counts once its line or its length is exceeded. -/
def keepPlace (c : Cursor) : Option KeyPlace → Except Fault (Option KeyPlace)
  | none => .ok none
  | some k =>
    if k.line < c.line || k.index + 1024 < c.index then
      if k.required then .error .missingColon else .ok none
    else .ok (some k)

def dropStale (s : Scanner) : Except Fault Scanner := do
  return { s with
    keyPlace := ← keepPlace s.cursor s.keyPlace
    brackets := ← s.brackets.mapM (keepPlace s.cursor) }

/-- Gives up the key place at hand. -/
def dropPlace (s : Scanner) : Except Fault Scanner :=
  if s.keyPlace.any KeyPlace.required then .error .missingColon else .ok { s with keyPlace := none }

/-- Notes that a key may begin here. -/
def savePlace (s : Scanner) : Except Fault Scanner := do
  if s.keyAllowed then
    let s ← s.dropPlace
    let c := s.cursor
    let required := !s.inFlow && s.indent = c.column
    return { s with keyPlace := some ⟨required, s.count, c.line, c.column, c.index⟩ }
  else return s

/-- Closes the blocks that are indented further than a column. -/
def closeBlocks (s : Scanner) (column : Int) : Scanner :=
  if s.inFlow then s else close s.outer s
where
  close : List Int → Scanner → Scanner
    | [], s => s
    | around :: rest, s =>
      if column < s.indent then close rest { s.push .blockEnd with indent := around, outer := rest }
      else s

/-- Opens a block at a column that is indented further, with its token after the first `position`
ones. -/
def openBlock (s : Scanner) (column position : Nat) (t : Token) : Scanner :=
  if !s.inFlow && s.indent < column then
    { s.insertAt position t with indent := column, outer := s.indent :: s.outer }
  else s

/-- Skips blanks, comments and line breaks. A tab does not stand where a key may begin. -/
def skipToToken : Nat → Scanner → Scanner
  | 0, s => s
  | fuel + 1, s =>
    let c := match s.cursor.rest with
      | '\ufeff' :: _ => if s.cursor.column = 0 then s.cursor.skip 1 else s.cursor
      | _ => s.cursor
    let tabs := s.inFlow || !s.keyAllowed
    let c := (c.skipWhile fun x => x = ' ' || (tabs && x = '\t')).skipComment
    if !c.rest.isEmpty && endsLine c.rest then
      skipToToken fuel { s with cursor := c.skipBreak, keyAllowed := s.keyAllowed || !s.inFlow }
    else { s with cursor := c }

/-! Directives -/

/-- A number of at most nine digits. -/
def takeNumber (c : Cursor) : Except Fault (Nat × Cursor) :=
  let (digits, c) := c.takeWhile Char.isDigit
  if digits.isEmpty || 9 < digits.length then .error .badDirective
  else .ok (digits.foldl (fun n d => n * 10 + (d.toNat - '0'.toNat)) 0, c)

def takeVersion (c : Cursor) : Except Fault (Token × Cursor) := do
  let (major, c) ← takeNumber (c.skipWhile isBlank)
  if c.rest.head? ≠ some '.' then throw .badDirective
  let (minor, c) ← takeNumber (c.skip 1)
  return (.version major minor, c)

/-- A handle: a mark, word characters, and a mark again. What lacks the second mark is not a
whole handle. -/
def takeHandle (c : Cursor) : Except Fault (String × Cursor) :=
  if c.rest.head? ≠ some '!' then .error .badTag
  else
    let (word, c) := (c.skip 1).takeWhile isWordChar
    if c.rest.head? = some '!' then .ok (String.ofList ('!' :: word ++ ['!']), c.skip 1)
    else .ok (String.ofList ('!' :: word), c)

/-- A complete handle begins and ends with a mark; a lone mark does not count. -/
def isWholeHandle (handle : String) : Bool :=
  1 < handle.length && handle.toList.getLast? = some '!'

def tagMarks : List Char := ";/?:@&=+$.%!~*'()".toList

def isTagChar (verbatim : Bool) (c : Char) : Bool :=
  isWordChar c || tagMarks.contains c || (verbatim && (c = ',' || c = '[' || c = ']'))

/-- A byte as a percent sign and two hexadecimal digits. -/
def takeEscapedByte (c : Cursor) : Except Fault (Nat × Cursor) :=
  match c.rest with
  | '%' :: high :: low :: _ =>
    match Json.hexValue? high, Json.hexValue? low with
    | some high, some low => .ok (high * 16 + low, c.skip 3)
    | _, _ => .error .badTag
  | _ => .error .badTag

/-- How many bytes follow the first byte of a character. -/
def bytesAfter (lead : Nat) : Except Fault Nat :=
  if lead < 0x80 then .ok 0
  else if 0xc0 ≤ lead && lead < 0xe0 then .ok 1
  else if 0xe0 ≤ lead && lead < 0xf0 then .ok 2
  else if 0xf0 ≤ lead && lead < 0xf8 then .ok 3
  else .error .badTag

/-- Bytes that go on with a character. -/
def takeTrailingBytes : Nat → Cursor → Except Fault (List Nat × Cursor)
  | 0, c => .ok ([], c)
  | count + 1, c => do
    let (byte, c) ← takeEscapedByte c
    if byte < 0x80 || 0xc0 ≤ byte then throw .badTag
    let (bytes, c) ← takeTrailingBytes count c
    return (byte :: bytes, c)

/-- The escaped bytes of a character. They have the shape of UTF-8, but need not be the shortest
form of a character that exists. -/
def takeEscapedChar (c : Cursor) : Except Fault (List Nat × Cursor) := do
  let (lead, c) ← takeEscapedByte c
  let (bytes, c) ← takeTrailingBytes (← bytesAfter lead) c
  return (lead :: bytes, c)

/-- The bytes of a tag. -/
def takeTagBytes (verbatim : Bool) : Nat → List Nat → Cursor → Except Fault (List Nat × Cursor)
  | 0, bytes, c => .ok (bytes, c)
  | fuel + 1, bytes, c =>
    match c.rest with
    | [] => .ok (bytes, c)
    | x :: _ =>
      if x = '%' then do
        let (more, c) ← takeEscapedChar c
        takeTagBytes verbatim fuel (bytes ++ more) c
      else if isTagChar verbatim x then
        takeTagBytes verbatim fuel (bytes ++ [x.toNat]) (c.skip 1)
      else .ok (bytes, c)

/-- A tag ends at a zero byte; what comes after it has no meaning. -/
def tagOfBytes (bytes : List Nat) : Tag := ⟨(bytes.takeWhile fun b => b ≠ 0).map UInt8.ofNat⟩

def takeHandleExpansion (c : Cursor) : Except Fault (Token × Cursor) := do
  let (handle, c) ← takeHandle (c.skipWhile isBlank)
  if !(isWholeHandle handle || handle = "!") then throw .badTag
  if !(c.rest.head?.any isBlank) then throw .badTag
  let c := c.skipWhile isBlank
  let (expansion, c) ← takeTagBytes true (c.rest.length + 1) [] c
  if expansion.isEmpty || !endsWord c.rest then throw .badTag
  return (.handle handle (tagOfBytes expansion), c)

/-- A directive, with the rest of its line. -/
def takeDirective (c : Cursor) : Except Fault (Token × Cursor) := do
  let (name, c) := (c.skip 1).takeWhile isWordChar
  if !endsWord c.rest then throw .badDirective
  let (token, c) ← match String.ofList name with
    | "YAML" => takeVersion c
    | "TAG" => takeHandleExpansion c
    | _ => throw .badDirective
  let c := (c.skipWhile isBlank).skipComment
  if endsLine c.rest then return (token, c.skipBreak) else throw .badDirective

/-! Names and tags -/

/-- What may follow a name directly. -/
def endsName : List Char → Bool
  | [] => true
  | c :: _ => isBlank c || isBreak c || "?:,]\x7d%@\x60".toList.contains c

def takeName (c : Cursor) : Except Fault (String × Cursor) :=
  let (name, c) := (c.skip 1).takeWhile isWordChar
  if name.isEmpty || !endsName c.rest then .error .badName else .ok (String.ofList name, c)

/-- The handle and suffix of a tag: given in full, behind a handle, or behind a single mark. -/
def takeTagParts (c : Cursor) : Except Fault (String × Tag × Cursor) := do
  if (c.rest.drop 1).head? = some '<' then
    let c := c.skip 2
    let (bytes, c) ← takeTagBytes true (c.rest.length + 1) [] c
    if bytes.isEmpty || c.rest.head? ≠ some '>' then throw .badTag
    return ("", tagOfBytes bytes, c.skip 1)
  else
    let (handle, c) ← takeHandle c
    if isWholeHandle handle then
      let (bytes, c) ← takeTagBytes false (c.rest.length + 1) [] c
      if bytes.isEmpty then throw .badTag
      return (handle, tagOfBytes bytes, c)
    else
      let word := (handle.toList.drop 1).map Char.toNat
      let (bytes, c) ← takeTagBytes false (c.rest.length + 1) word c
      let suffix := tagOfBytes bytes
      return if suffix.bytes.isEmpty then ("", .ofString "!", c) else ("!", suffix, c)

def takeTag (inFlow : Bool) (c : Cursor) : Except Fault (Token × Cursor) := do
  let (handle, suffix, c) ← takeTagParts c
  if endsWord c.rest || (inFlow && c.rest.head? = some ',') then return (.tag handle suffix, c)
  else throw .badTag

/-! Tokens. A bound is at least one more than the number of characters ahead. -/

/-- Adds a token read at the cursor. -/
def add (s : Scanner) (read : Except Fault (Token × Cursor)) : Except Fault Scanner := do
  let (t, c) ← read
  return { s.push t with cursor := c }

/-- Adds a token after which no key begins on the same line, and before which one may. -/
def addNode (s : Scanner) (read : Except Fault (Token × Cursor)) : Except Fault Scanner := do
  let s ← s.savePlace
  { s with keyAllowed := false }.add read

/-- Closes all blocks at a directive or a document mark. -/
def leave (s : Scanner) : Except Fault Scanner := do
  return { ← (s.closeBlocks (-1)).dropPlace with keyAllowed := false }

def addEnd (s : Scanner) : Except Fault Scanner := do
  return (← s.leave).push .streamEnd

def addOpening (s : Scanner) (t : Token) : Except Fault Scanner := do
  let s ← s.savePlace
  return { (s.push t).skip 1 with
    keyPlace := none
    brackets := s.keyPlace :: s.brackets
    keyAllowed := true }

/-- A closing bracket. The key place that began with the opening one counts again. -/
def addClosing (s : Scanner) (t : Token) : Except Fault Scanner := do
  let s ← s.dropPlace
  let s := match s.brackets with
    | place :: rest => { s with keyPlace := place, brackets := rest }
    | [] => s
  return { (s.push t).skip 1 with keyAllowed := false }

def addFlowEntry (s : Scanner) : Except Fault Scanner := do
  return { ((← s.dropPlace).push .flowEntry).skip 1 with keyAllowed := true }

/-- Opens a block for an indicator that stands at the cursor. -/
def openBlockHere (s : Scanner) (t : Token) : Except Fault Scanner :=
  if s.inFlow then .ok s
  else if !s.keyAllowed then .error .misplacedIndicator
  else .ok (s.openBlock s.cursor.column s.count t)

def addBlockEntry (s : Scanner) : Except Fault Scanner := do
  let s ← (← s.openBlockHere .blockListStart).dropPlace
  return { (s.push .blockEntry).skip 1 with keyAllowed := true }

def addKey (s : Scanner) : Except Fault Scanner := do
  let s ← (← s.openBlockHere .blockMappingStart).dropPlace
  return { (s.push .key).skip 1 with keyAllowed := !s.inFlow }

/-- A colon. If a key may have begun before, it did. -/
def addValue (s : Scanner) : Except Fault Scanner := do
  match s.keyPlace with
  | some k =>
    let s := (s.insertAt k.position .key).openBlock k.column k.position .blockMappingStart
    return { (s.push .value).skip 1 with keyPlace := none, keyAllowed := false }
  | none =>
    let s ← s.openBlockHere .blockMappingStart
    return { (s.push .value).skip 1 with keyAllowed := !s.inFlow }

def addBlockScalar (s : Scanner) (bound : Nat) (folds : Bool) : Except Fault Scanner := do
  let s ← s.dropPlace
  let (text, c) ← takeBlock folds s.indent bound (s.cursor.skip 1)
  let style := if folds then ScalarStyle.folded else ScalarStyle.literal
  return { s.push (.scalar (String.ofList text) style) with cursor := c, keyAllowed := true }

def addQuoted (s : Scanner) (bound : Nat) (quote : Char) (style : ScalarStyle) :
    Except Fault Scanner :=
  s.addNode do
    let (text, c) ← takeQuoted quote bound [] (s.cursor.skip 1)
    return (.scalar (String.ofList text) style, c)

def addPlain (s : Scanner) (bound : Nat) : Except Fault Scanner := do
  let s ← s.savePlace
  let (text, broken, c) ← takePlain s.inFlow (s.indent + 1).toNat bound [] {} s.cursor
  return { s.push (.scalar (String.ofList text) .plain) with cursor := c, keyAllowed := broken }

/-- Characters with a meaning of their own at the start of a word. -/
def indicators : List Char := "-?:,[]\x7b\x7d#&*!|>'%@\x22\x60".toList

/-- A plain scalar may begin with these characters. -/
def beginsPlain (inFlow : Bool) (c : Char) (after : List Char) : Bool :=
  (!isBlank c && !isBreak c && !indicators.contains c)
    || (c = '-' && !(after.head?.any isBlank))
    || (!inFlow && (c = '?' || c = ':') && !endsWord after)

/-- Adds the token that begins with a character. -/
def addAt (s : Scanner) (bound : Nat) (c : Char) (after : List Char) : Except Fault Scanner :=
  let indicates := s.inFlow || endsWord after
  if c = '[' then s.addOpening .flowListStart
  else if c = '\x7b' then s.addOpening .flowMappingStart
  else if c = ']' then s.addClosing .flowListEnd
  else if c = '\x7d' then s.addClosing .flowMappingEnd
  else if c = ',' then s.addFlowEntry
  else if c = '-' && endsWord after then s.addBlockEntry
  else if c = '?' && indicates then s.addKey
  else if c = ':' && indicates then s.addValue
  else if c = '*' then s.addNode ((takeName s.cursor).map fun (name, c) => (.aliasOf name, c))
  else if c = '&' then s.addNode ((takeName s.cursor).map fun (name, c) => (.anchor name, c))
  else if c = '!' then s.addNode (takeTag s.inFlow s.cursor)
  else if c = '|' && !s.inFlow then s.addBlockScalar bound false
  else if c = '>' && !s.inFlow then s.addBlockScalar bound true
  else if c = '\x27' then s.addQuoted bound c .singleQuoted
  else if c = '\x22' then s.addQuoted bound c .doubleQuoted
  else if beginsPlain s.inFlow c after then s.addPlain bound
  else .error .unexpectedCharacter

/-- Adds the next token. -/
def next (s : Scanner) (bound : Nat) : Except Fault Scanner := do
  let s ← (skipToToken bound s).dropStale
  let s := s.closeBlocks s.cursor.column
  match s.cursor.rest with
  | [] => s.addEnd
  | c :: after =>
    if s.cursor.column = 0 && c = '%' then (← s.leave).add (takeDirective s.cursor)
    else if s.cursor.atDocumentMark '-' then return ((← s.leave).push .documentStart).skip 3
    else if s.cursor.atDocumentMark '.' then return ((← s.leave).push .documentEnd).skip 3
    else s.addAt bound c after

/-- Adds tokens up to the end of the text. Each takes a character at least, so the count that bounds
the rounds bounds the characters ahead as well. -/
def run : Nat → Scanner → Except Fault (List Token)
  | 0, _ => .error .unexpectedCharacter
  | fuel + 1, s => do
    let s ← s.next (fuel + 1)
    match s.tokens with
    | .streamEnd :: _ => return s.tokens.reverse
    | _ => run fuel s

end Scanner

/-- Tabs, line breaks, and all characters that are no controls. -/
def isAllowed (c : Char) : Bool :=
  let n := c.toNat
  n = 9 || n = 10 || n = 13 || (0x20 ≤ n && n ≤ 0x7e) || n = 0x85 || (0xa0 ≤ n && n ≤ 0xd7ff)
    || (0xe000 ≤ n && n ≤ 0xfffd) || 0x10000 ≤ n

/-- All tokens of a text. -/
def Token.ofText (text : String) : Except Fault (List Token) :=
  let chars := text.toList
  match chars.find? fun c => !isAllowed c with
  | some c => .error (.controlCharacter c)
  | none => (Scanner.start chars).run (chars.length + 2)

end ApproxQuery.Yaml
