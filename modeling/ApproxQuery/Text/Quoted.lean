import ApproxQuery.Text.Hidden

/-! Text between quotes in which every character that does not show as itself is escaped. -/
namespace ApproxQuery.Text

/-- Escapes that have a letter. -/
def letterEscapes : List (Char × Char) :=
  [('\x00', '0'), ('\t', 't'), ('\r', 'r'), ('\n', 'n'), ('\\', '\\'), ('\x22', '\x22')]

/-- A character that does not show is written by its number in hexadecimal. -/
def escaped (c : Char) : List Char :=
  match letterEscapes.lookup c with
  | some letter => ['\\', letter]
  | none =>
    if isHidden c then '\\' :: 'u' :: '\x7b' :: (Nat.toDigits 16 c.toNat ++ ['\x7d']) else [c]

/-- A text between double quotes, with escapes for all that does not show as itself. -/
def quoted (text : String) : String :=
  String.ofList ('\x22' :: (text.toList.flatMap escaped ++ ['\x22']))

end ApproxQuery.Text
