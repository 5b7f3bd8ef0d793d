/-! Reads decimal numbers as the nearest double. -/
namespace ApproxQuery.Decimal

/-- A decimal as written: `digits * 10 ^ exponent`. -/
structure Written where
  negative : Bool
  digits : Nat
  exponent : Int
deriving Repr

/-- The nearest double. Beyond 400 powers of ten either way the answer is infinity or zero,
and the huge power is never formed. -/
def Written.nearest (w : Written) : Float :=
  let width : Int := (Nat.log2 w.digits : Int) * 30103 / 100000
  let magnitude : Float :=
    if w.digits = 0 then 0.0
    else if 400 < w.exponent + width then 1.0 / 0.0
    else if w.exponent + width < -400 then 0.0
    else if 0 ≤ w.exponent then Float.ofScientific (w.digits * Nat.pow 10 w.exponent.toNat) false 0
    else Float.ofScientific w.digits true (-w.exponent).toNat
  if w.negative then -magnitude else magnitude

/-- The nearest double to an integer. -/
def nearestOfInt (n : Int) : Float :=
  Written.nearest ⟨n < 0, n.natAbs, 0⟩

def digitValue? (c : Char) : Option Nat :=
  if '0' ≤ c && c ≤ '9' then some (c.toNat - '0'.toNat) else none

/-- Takes the decimal digits at the start of a text: how many, their value, and the rest. -/
def takeDigits : List Char → Nat × Nat × List Char :=
  go 0 0
where
  go (count value : Nat) : List Char → Nat × Nat × List Char
    | [] => (count, value, [])
    | c :: rest =>
      match digitValue? c with
      | some d => go (count + 1) (value * 10 + d) rest
      | none => (count, value, c :: rest)

/-- An exponent mark with its sign and digits, if a whole one stands here. -/
def takeExponent : List Char → Option (Int × List Char)
  | c :: rest =>
    if c = 'e' || c = 'E' then
      let (negative, rest) := match rest with
        | '-' :: r => (true, r)
        | '+' :: r => (false, r)
        | r => (false, r)
      match takeDigits rest with
      | (0, _, _) => none
      | (_, value, rest) => some (if negative then -(value : Int) else value, rest)
    else none
  | [] => none

/-- Reads an unsigned decimal in the loose form: digits on at least one side of an optional
point, then an optional exponent. Nothing may follow. -/
def readLoose? (text : List Char) : Option Written :=
  let (whole, value, rest) := takeDigits text
  let (places, value, rest) := match rest with
    | '.' :: r =>
      let (count, tail, r) := takeDigits r
      (count, value * Nat.pow 10 count + tail, r)
    | r => (0, value, r)
  if whole + places = 0 then none
  else match rest with
    | [] => some ⟨false, value, -(places : Int)⟩
    | r => match takeExponent r with
      | some (power, []) => some ⟨false, value, power - places⟩
      | _ => none

end ApproxQuery.Decimal
