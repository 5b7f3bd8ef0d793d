import ApproxQuery.Decimal.Shortest

/-! How the digits of a number are laid out as text. A layout is a value, so that each
output format states its own conventions once. -/
namespace ApproxQuery.Decimal

/-- Conventions for writing a double. -/
structure Layout where
  /-- Exponents of the first digit that are written without an exponent mark. -/
  positional : Int → Bool
  /-- Writes `.0` after a whole number in positional notation. -/
  pointZero : Bool
  /-- Stands before a non-negative exponent. -/
  plus : String
  tie : Tie
  nan : String
  infinite : String

/-- Decimal digits of a number. -/
def digitText (n : Nat) : String := String.ofList (Nat.toDigits 10 n)

def zeros (count : Nat) : String := String.ofList (List.replicate count '0')

/-- Positional notation: zeros fill the gap between the digits and the point. -/
def Digits.positional (d : Digits) (pointZero : Bool) : String :=
  if 0 ≤ d.exponent then
    digitText d.digits ++ zeros d.exponent.toNat ++ (if pointZero then ".0" else "")
  else
    let places := (-d.exponent).toNat
    let text := (Nat.toDigits 10 d.digits)
    let padded := List.replicate (places + 1 - text.length) '0' ++ text
    let whole := padded.length - places
    String.ofList (padded.take whole ++ '.' :: padded.drop whole)

/-- Scientific notation with one digit before the point, and no point after a single digit. -/
def Digits.scientific (d : Digits) (plus : String) : String :=
  let text := Nat.toDigits 10 d.digits
  let power := d.exponent + (text.length - 1 : Nat)
  let mantissa := match text with
    | first :: second :: rest => first :: '.' :: second :: rest
    | single => single
  let sign := if power < 0 then "-" else plus
  String.ofList mantissa ++ "e" ++ sign ++ digitText power.natAbs

/-- The decimal exponent of the first digit. -/
def Digits.leading (d : Digits) : Int :=
  d.exponent + ((Nat.toDigits 10 d.digits).length - 1 : Nat)

/-- Writes a double with the fewest digits that read back. -/
def Layout.write (l : Layout) (x : Float) : String :=
  match Class.ofFloat x with
  | .nan => l.nan
  | .infinite negative => (if negative then "-" else "") ++ l.infinite
  | .zero negative => (if negative then "-0" else "0") ++ (if l.pointZero then ".0" else "")
  | .finite negative magnitude =>
    let d := magnitude.shortest l.tie
    (if negative then "-" else "")
      ++ (if l.positional d.leading then d.positional l.pointZero else d.scientific l.plus)

/-- A double that is a whole number. -/
def isWhole (x : Float) : Bool :=
  match Class.ofFloat x with
  | .nan => false
  | .infinite _ => false
  | .zero _ => true
  | .finite _ d => 0 ≤ d.exponent || d.mantissa % 1 <<< (-d.exponent).toNat = 0

/-- Every digit of a whole double, then `.0`. -/
def writeWhole (x : Float) : String :=
  match Class.ofFloat x with
  | .finite negative d =>
    let r := Ratio.ofDyadic d.mantissa d.exponent
    (if negative then "-" else "") ++ digitText (r.num / r.den) ++ ".0"
  | .zero negative => if negative then "-0.0" else "0.0"
  | .infinite _ => ""
  | .nan => ""

end ApproxQuery.Decimal
