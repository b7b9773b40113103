import PacketCodec.Binary.Format

/-!
# Numbers of 64 bits

A double is its bit pattern. Conversions from integers, from fractions and to and from 32 bits round
to the nearest number and ties to the even one; comparison is numeric, so a NaN differs from itself and
the two zeros are equal.
-/

namespace PacketCodec

open Binary

/-- A binary floating-point number of 64 bits, given by its pattern. -/
structure Double where
  bits : UInt64
  deriving DecidableEq, Repr

namespace Double

/-- The pattern without its sign. -/
def magnitude (x : Double) : Nat := x.bits.toNat % 0x8000000000000000

def negative (x : Double) : Bool := decide (0x8000000000000000 ≤ x.bits.toNat)

def ofParts (negative : Bool) (magnitude : Nat) : Double :=
  ⟨UInt64.ofNat (if negative then 0x8000000000000000 + magnitude else magnitude)⟩

def isNaN (x : Double) : Bool := decide (Format.double.infinity < x.magnitude)

def isInfinite (x : Double) : Bool := decide (x.magnitude = Format.double.infinity)

def nan : Double := ⟨0x7FF8000000000000⟩

/-- The finite number as `significand · 2 ^ exponent`, its sign aside. -/
def finiteValue (x : Double) : Nat × Int := Format.double.finiteValue x.magnitude

def toFraction (x : Double) : Nat × Nat :=
  let (m, e) := x.finiteValue
  Format.scale m 1 (-e)

def ofFraction (negative : Bool) (num den : Nat) : Double :=
  ofParts negative (Format.double.nearest num den)

def ofInt (i : Int) : Double := ofFraction (decide (i < 0)) i.natAbs 1

protected def beq (x y : Double) : Bool :=
  !x.isNaN && !y.isNaN && (x.bits == y.bits || (x.magnitude == 0 && y.magnitude == 0))

instance : BEq Double := ⟨Double.beq⟩

/-- The pattern of 32 bits nearest to the number. A NaN keeps its sign and the leading bits of its
payload and becomes quiet. -/
def toSingleBits (x : Double) : Nat :=
  let sign := if x.negative then 0x80000000 else 0
  let single := Format.single
  if x.isNaN then
    sign + (single.infinity ||| single.quietBit ||| (x.magnitude % (1 <<< 52)) >>> 29)
  else if x.isInfinite then sign + single.infinity
  else
    let (num, den) := x.toFraction
    sign + single.nearest num den

/-- The number that a pattern of 32 bits stands for. A NaN keeps its sign and payload and becomes
quiet. -/
def ofSingleBits (bits : Nat) : Double :=
  let negative := decide (0x80000000 ≤ bits)
  let magnitude := bits % 0x80000000
  let single := Format.single
  let double := Format.double
  if single.infinity < magnitude then
    ofParts negative (double.infinity ||| double.quietBit ||| (magnitude % (1 <<< 23)) <<< 29)
  else if magnitude = single.infinity then ofParts negative double.infinity
  else
    let (m, e) := single.finiteValue magnitude
    let (num, den) := Format.scale m 1 (-e)
    ofFraction negative num den

/-- The nearest number to a product, both factors finite. -/
def mul (x y : Double) : Double :=
  let (n₁, d₁) := x.toFraction
  let (n₂, d₂) := y.toFraction
  ofFraction (x.negative ^^ y.negative) (n₁ * n₂) (d₁ * d₂)

/-- The nearest number to a quotient, both finite and the divisor not zero. -/
def div (x y : Double) : Double :=
  let (n₁, d₁) := x.toFraction
  let (n₂, d₂) := y.toFraction
  ofFraction (x.negative ^^ y.negative) (n₁ * d₂) (d₁ * n₂)

def neg (x : Double) : Double := ofParts (!x.negative) x.magnitude

end Double

end PacketCodec
