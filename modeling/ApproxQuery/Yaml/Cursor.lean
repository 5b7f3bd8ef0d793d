/-! A place in a text, with its line and column. -/
namespace ApproxQuery.Yaml

/-- Why a text is not one YAML document. -/
inductive Fault where
  | controlCharacter (c : Char)
  | unexpectedCharacter
  | missingColon
  | misplacedIndicator
  | tabIndent
  | zeroIndent
  | unclosedQuote
  | badEscape
  | badDirective
  | badTag
  | badName
  | unexpectedToken
  | unknownHandle (handle : String)
  | unknownAlias (name : String)
  | noDocument
  | severalDocuments
deriving DecidableEq, Repr

/-- Line feed, carriage return, next line, line separator and paragraph separator. -/
def isBreak (c : Char) : Bool :=
  c = '\n' || c = '\r' || c.toNat = 0x85 || c.toNat = 0x2028 || c.toNat = 0x2029

def isBlank (c : Char) : Bool := c = ' ' || c = '\t'

/-- ASCII letters and digits, the hyphen and the underscore. -/
def isWordChar (c : Char) : Bool := c.isAlphanum || c = '-' || c = '_'

/-- The line ends here. -/
def endsLine : List Char → Bool
  | [] => true
  | c :: _ => isBreak c

/-- A blank, a break or the end of the text stands here. -/
def endsWord : List Char → Bool
  | [] => true
  | c :: _ => isBlank c || isBreak c

structure Cursor where
  rest : List Char
  line : Nat
  column : Nat
  /-- How many bytes come before. -/
  index : Nat

namespace Cursor

def start (text : List Char) : Cursor := ⟨text, 0, 0, 0⟩

/-- How many bytes some characters take. -/
def bytes (text : List Char) : Nat := text.foldl (fun n x => n + x.utf8Size) 0

/-- Goes on by some characters of the line. -/
def skip (c : Cursor) (count : Nat) : Cursor :=
  { c with
    rest := c.rest.drop count
    column := c.column + count
    index := c.index + bytes (c.rest.take count) }

/-- The longest stretch of characters of the line with a property. -/
def takeWhile (c : Cursor) (p : Char → Bool) : List Char × Cursor :=
  let taken := c.rest.takeWhile p
  (taken, c.skip taken.length)

def skipWhile (c : Cursor) (p : Char → Bool) : Cursor := (c.takeWhile p).2

def skipComment (c : Cursor) : Cursor :=
  match c.rest with
  | '#' :: _ => c.skipWhile fun x => !isBreak x
  | _ => c

/-- Takes a line break, if one stands here. All breaks read as a line feed but for the line and
paragraph separators. -/
def takeBreak (c : Cursor) : List Char × Cursor :=
  match c.rest with
  | '\r' :: '\n' :: rest => (['\n'], ⟨rest, c.line + 1, 0, c.index + 2⟩)
  | b :: rest =>
    if isBreak b then
      (if b.toNat = 0x2028 || b.toNat = 0x2029 then [b] else ['\n'],
        ⟨rest, c.line + 1, 0, c.index + b.utf8Size⟩)
    else ([], c)
  | [] => ([], c)

def skipBreak (c : Cursor) : Cursor := c.takeBreak.2

/-- A line of three hyphens, or of three points, begins here, and may go on after a blank. -/
def atDocumentMark (c : Cursor) (mark : Char) : Bool :=
  c.column = 0 && [mark, mark, mark].isPrefixOf c.rest && endsWord (c.rest.drop 3)

def atSomeDocumentMark (c : Cursor) : Bool := c.atDocumentMark '-' || c.atDocumentMark '.'

end Cursor

end ApproxQuery.Yaml
