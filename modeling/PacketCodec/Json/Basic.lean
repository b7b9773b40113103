import PacketCodec.Decimal.Shortest
import PacketCodec.Table

/-!
# JSON trees

A number is an integer as it was written, or a decimal with its sign, for a zero may have one. The
double of a decimal is taken in two steps: the digits, as far as they fit 64 bits, become the nearest
double, which is then multiplied or divided by the nearest double of a power of ten.
-/

namespace PacketCodec

inductive JsonNumber where
  /-- Written without a fraction and without an exponent. -/
  | integer (i : Int)
  | decimal (negative : Bool) (magnitude : Decimal)
  deriving Repr

inductive Json where
  | null
  | bool (b : Bool)
  | number (n : JsonNumber)
  | string (s : String)
  | array (items : List Json)
  | object (members : List (String × Json))
  deriving Inhabited

namespace Json

def integer (i : Int) : Json := .number (.integer i)

def nat (n : Nat) : Json := .number (.integer n)

def optionString : Option String → Json
  | some s => .string s
  | none => .null

def member? : Json → String → Option Json
  | .object members, name => Table.get? members name
  | _, _ => none

end Json

namespace JsonNumber

/-- The largest exponent of a power of ten that a double holds. -/
def maxPower : Nat := 308

def power (exponent : Nat) : Double := Double.ofFraction false (Nat.pow 10 exponent) 1

/-- Digits as far as they fit 64 bits, and how many had to be left out. -/
def leadingDigits (sofar dropped : Nat) : List Char → Nat × Nat
  | [] => (sofar, dropped)
  | c :: rest =>
    let next := 10 * sofar + (c.toNat - '0'.toNat)
    if dropped = 0 ∧ next < UInt64.size then leadingDigits next 0 rest
    else leadingDigits sofar (dropped + 1) rest

/-- A double scaled by a power of ten, if the result is finite. -/
def scaleDouble (x : Double) (exponent : Int) : Option Double :=
  match exponent with
  | .ofNat e =>
    if x.magnitude = 0 then some x
    else if e ≤ maxPower then
      let y := x.mul (power e)
      if y.isInfinite then none else some y
    else none
  | .negSucc e =>
    let places := e + 1
    if places ≤ maxPower then some (x.div (power places))
    else
      let y := x.div (power maxPower)
      if places ≤ 2 * maxPower then some (y.div (power (places - maxPower)))
      else some (Double.ofParts false 0)

def toDouble? : JsonNumber → Option Double
  | .integer i =>
    let (digits, dropped) := leadingDigits 0 0 (Nat.toDigits 10 i.natAbs)
    (scaleDouble (Double.ofInt digits) dropped).map fun x => if i < 0 then x.neg else x
  | .decimal negative magnitude =>
    let (digits, dropped) := leadingDigits 0 0 (Nat.toDigits 10 magnitude.digits)
    (scaleDouble (Double.ofInt digits) (dropped + magnitude.exponent)).map
      fun x => if negative then x.neg else x

/-- The number that a double prints as. No JSON number is infinite or NaN. -/
def ofDouble? (x : Double) : Option JsonNumber :=
  if x.isNaN || x.isInfinite then none
  else some (.decimal x.negative (Decimal.shortest x))

end JsonNumber

end PacketCodec
