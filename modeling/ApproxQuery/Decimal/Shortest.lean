/-! The fewest decimal digits that read back to a binary floating point value. A value
is `mantissa * 2 ^ exponent`; all comparisons are exact, in natural numbers. -/
namespace ApproxQuery.Decimal

/-- A finite positive double. At a power of two the gap below is half the gap above. -/
structure Dyadic where
  mantissa : Nat
  exponent : Int
  narrowBelow : Bool
deriving Repr

/-- The fraction `num / den` of natural numbers. -/
structure Ratio where
  num : Nat
  den : Nat
deriving Repr

/-- `count * 2 ^ exponent` as a fraction. -/
def Ratio.ofDyadic (count : Nat) (exponent : Int) : Ratio :=
  if 0 ≤ exponent then ⟨count <<< exponent.toNat, 1⟩ else ⟨count, 1 <<< (-exponent).toNat⟩

/-- Divides by a power of ten. -/
def Ratio.scaleDown (r : Ratio) (power : Int) : Ratio :=
  if 0 ≤ power then ⟨r.num, r.den * Nat.pow 10 power.toNat⟩
  else ⟨r.num * Nat.pow 10 (-power).toNat, r.den⟩

/-- How a value halfway between two decimals is rounded. -/
inductive Tie where
  | up | even
deriving DecidableEq, Repr

/-- The decimal `digits * 10 ^ exponent`. -/
structure Digits where
  digits : Nat
  exponent : Int
deriving DecidableEq, Repr

/-- The decimals that read back to the value, in quarters of its last binary place. -/
structure Interval where
  low : Ratio
  value : Ratio
  high : Ratio
  closed : Bool

def Dyadic.interval (x : Dyadic) : Interval :=
  let quarter := x.exponent - 2
  { low := .ofDyadic (4 * x.mantissa - if x.narrowBelow then 1 else 2) quarter
    value := .ofDyadic (4 * x.mantissa) quarter
    high := .ofDyadic (4 * x.mantissa + 2) quarter
    closed := x.mantissa % 2 = 0 }

/-- An integer lies within the interval, all seen on the grid of multiples of a power of ten. -/
def Interval.holds (low high : Ratio) (closed : Bool) (n : Nat) : Bool :=
  if closed then low.num ≤ n * low.den && n * high.den ≤ high.num
  else low.num < n * low.den && n * high.den < high.num

/-- The multiple of `10 ^ power` that reads back and is nearest to the value, if one reads back.
Only the two neighbours of the value need a look. -/
def Interval.onGrid (i : Interval) (tie : Tie) (power : Int) : Option Nat :=
  let value := i.value.scaleDown power
  let low := i.low.scaleDown power
  let high := i.high.scaleDown power
  let floor := value.num / value.den
  let below := Interval.holds low high i.closed floor && floor ≠ 0
  let above := Interval.holds low high i.closed (floor + 1)
  let twiceRest := 2 * (value.num % value.den)
  let nearerAbove : Bool := match tie with
    | .up => value.den ≤ twiceRest
    | .even => value.den < twiceRest || (twiceRest = value.den && floor % 2 = 1)
  if below && above then some (if nearerAbove then floor + 1 else floor)
  else if below then some floor
  else if above then some (floor + 1)
  else none

/-- The decimal exponent of the first digit of a positive fraction. -/
def Ratio.leadingPower (r : Ratio) : Int :=
  let estimate : Int := (Nat.log2 r.num : Int) - Nat.log2 r.den
  let start := estimate * 30103 / 100000 - 1
  let fits (power : Int) : Bool :=
    let scaled := r.scaleDown power
    scaled.den ≤ scaled.num
  if fits (start + 3) then start + 3
  else if fits (start + 2) then start + 2
  else if fits (start + 1) then start + 1
  else start

/-- Tries finer and finer grids. -/
def Interval.search (i : Interval) (tie : Tie) : Nat → Int → Digits
  | 0, power => ⟨0, power⟩
  | places + 1, power =>
    match i.onGrid tie power with
    | some digits => ⟨digits, power⟩
    | none => i.search tie places (power - 1)

/-- Moves trailing zeros into the exponent. -/
def Digits.trim : Nat → Digits → Digits
  | 0, d => d
  | fuel + 1, d =>
    if d.digits ≠ 0 && d.digits % 10 = 0 then trim fuel ⟨d.digits / 10, d.exponent + 1⟩ else d

/-- Seventeen digits tell all doubles apart; the grid one above the first digit may hold a hit. -/
def Dyadic.shortest (x : Dyadic) (tie : Tie) : Digits :=
  let found := x.interval.search tie 19 (x.interval.value.leadingPower + 1)
  found.trim 20

/-- The kinds of double. -/
inductive Class where
  | nan
  | infinite (negative : Bool)
  | zero (negative : Bool)
  | finite (negative : Bool) (magnitude : Dyadic)
deriving Repr

/-- Reads a double's sign, exponent and fraction fields. -/
def Class.ofFloat (x : Float) : Class :=
  let bits := x.toBits.toNat
  let negative := bits >>> 63 = 1
  let exponent : Nat := (bits >>> 52) % 2048
  let fraction : Nat := bits % (1 <<< 52)
  if exponent = 2047 then (if fraction = 0 then .infinite negative else .nan)
  else if exponent = 0 then
    (if fraction = 0 then .zero negative else .finite negative ⟨fraction, -1074, false⟩)
  else .finite negative ⟨fraction + 1 <<< 52, (exponent : Int) - 1075, fraction = 0 && exponent > 1⟩

end ApproxQuery.Decimal
