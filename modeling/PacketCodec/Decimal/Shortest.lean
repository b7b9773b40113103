import PacketCodec.Binary.Double

/-!
# Shortest decimals

The shortest decimal of a finite number is the one with the fewest digits among those that round to
the number; of several with that count it is the nearest, and of two equally near the upper one.
-/

namespace PacketCodec

/-- The number `digits · 10 ^ exponent`. -/
structure Decimal where
  digits : Nat
  exponent : Int
  deriving DecidableEq, Repr

namespace Decimal

def digitCount (n : Nat) : Nat := (Nat.toDigits 10 n).length

/-- `num / den` divided by `10 ^ exponent`, as a fraction. -/
def scale (num den : Nat) (exponent : Int) : Nat × Nat :=
  match exponent with
  | .ofNat e => (num, den * Nat.pow 10 e)
  | .negSucc e => (num * Nat.pow 10 (e + 1), den)

def leadingExponent (num den : Nat) : Int :=
  let guess := (digitCount num : Int) - digitCount den
  let (n, d) := scale num den guess
  if d ≤ n then guess else guess - 1

/-- Four times a number and the ends of the interval of reals that round to it, over one
denominator. The ends belong to the interval when the significand is even. -/
structure Interval where
  value : Nat
  low : Nat
  high : Nat
  den : Nat
  closed : Bool

/-- The interval of reals that round to `significand · 2 ^ exponent`. Below a power of two the
neighbour is only half a place away, unless the exponent is the least one. -/
def Interval.ofFinite (significand : Nat) (exponent : Int) : Interval :=
  let half := decide (significand = 1 <<< (Binary.Format.double.precision - 1) ∧
    exponent ≠ Binary.Format.double.minExponent)
  let (unit, den) := Binary.Format.scale 1 1 (2 - exponent)
  { value := 4 * significand * unit
    low := (4 * significand - if half then 1 else 2) * unit
    high := (4 * significand + 2) * unit
    den
    closed := significand % 2 = 0 }

def Interval.contains (i : Interval) (n : Nat) (exponent : Int) : Bool :=
  let (lowNum, d) := scale i.low i.den exponent
  let (highNum, _) := scale i.high i.den exponent
  let p := n * d
  if i.closed then decide (lowNum ≤ p ∧ p ≤ highNum) else decide (lowNum < p ∧ p < highNum)

/-- The multiple of `10 ^ exponent` in the interval that is nearest to the number. -/
def Interval.nearest? (i : Interval) (exponent : Int) : Option Nat :=
  let (n, d) := scale i.value i.den exponent
  let below := n / d
  match i.contains below exponent, i.contains (below + 1) exponent with
  | true, true => some (if d ≤ 2 * (n % d) then below + 1 else below)
  | true, false => some below
  | false, true => some (below + 1)
  | false, false => none

/-- The first hit on ever finer grids, `fuel` of them. -/
def Interval.search (i : Interval) : Nat → Int → Option Decimal
  | 0, _ => none
  | fuel + 1, exponent =>
    match i.nearest? exponent with
    | some n => some ⟨n, exponent⟩
    | none => i.search fuel (exponent - 1)

/-- The decimal without trailing zeros; `fuel` bounds their number. -/
def trim : Nat → Decimal → Decimal
  | 0, d => d
  | fuel + 1, d =>
    if d.digits ≠ 0 ∧ d.digits % 10 = 0 then trim fuel ⟨d.digits / 10, d.exponent + 1⟩ else d

/-- Significant digits that tell all numbers of 64 bits apart. -/
def maxDigits : Nat := 17

def shortest (x : Double) : Decimal :=
  let (m, e) := x.finiteValue
  if m = 0 then ⟨0, 0⟩
  else
    let i := Interval.ofFinite m e
    trim maxDigits ((i.search maxDigits (leadingExponent i.value i.den)).getD ⟨0, 0⟩)

def zeros (count : Nat) : List Char := List.replicate count '0'

/-- The decimal without an exponent: no point for a whole number, a leading zero below one. -/
def positional (d : Decimal) : String :=
  let digits := Nat.toDigits 10 d.digits
  match d.exponent with
  | .ofNat e => String.ofList (digits ++ zeros e)
  | .negSucc e =>
    let places := e + 1
    if places < digits.length then
      let whole := digits.length - places
      String.ofList (digits.take whole ++ '.' :: digits.drop whole)
    else String.ofList ('0' :: '.' :: zeros (places - digits.length) ++ digits)

end Decimal

/-- The shortest decimal in positional notation, or the name of what is no finite number. -/
def Double.render (x : Double) : String :=
  if x.isNaN then "NaN"
  else
    let sign := if x.negative then "-" else ""
    if x.isInfinite then sign ++ "inf" else sign ++ (Decimal.shortest x).positional

end PacketCodec
