/-!
# Binary interchange formats

A format is given by its precision and the width of its exponent field. A magnitude is a bit pattern
without its sign; the magnitudes of a format are ordered as their patterns are, so rounding may count
in units of the last place and let a carry run into the exponent.
-/

namespace PacketCodec.Binary

structure Format where
  /-- Significant bits of a normal number, the leading one included. -/
  precision : Nat
  exponentBits : Nat
  deriving DecidableEq, Repr

def Format.single : Format := ⟨24, 8⟩

def Format.double : Format := ⟨53, 11⟩

namespace Format

def width (f : Format) : Nat := f.precision + f.exponentBits

/-- The magnitude of infinity: an exponent field of ones and a fraction of zeros. -/
def infinity (f : Format) : Nat := ((1 <<< f.exponentBits) - 1) <<< (f.precision - 1)

/-- The fraction bit that marks a quiet NaN. -/
def quietBit (f : Format) : Nat := 1 <<< (f.precision - 2)

/-- The exponent of two that the last place of the smallest numbers stands for. -/
def minExponent (f : Format) : Int :=
  3 - (1 <<< (f.exponentBits - 1) : Nat) - f.precision

/-- The `significand · 2 ^ exponent` that a finite magnitude stands for. -/
def finiteValue (f : Format) (magnitude : Nat) : Nat × Int :=
  let field := magnitude >>> (f.precision - 1)
  let fraction := magnitude % (1 <<< (f.precision - 1))
  if field = 0 then (fraction, f.minExponent)
  else (fraction + (1 <<< (f.precision - 1)), f.minExponent + (field - 1 : Nat))

/-- The quotient rounded to the nearest number, a tie to the even one. -/
def roundQuotient (num den : Nat) : Nat :=
  let quotient := num / den
  let twice := 2 * (num % den)
  if den < twice ∨ (twice = den ∧ quotient % 2 = 1) then quotient + 1 else quotient

/-- `num / den` divided by `2 ^ exponent`, as a fraction. -/
def scale (num den : Nat) (exponent : Int) : Nat × Nat :=
  match exponent with
  | .ofNat e => (num, den <<< e)
  | .negSucc e => (num <<< (e + 1), den)

/-- The exponent of the last place in which `num / den` has as many digits as the format holds. -/
def placeExponent (f : Format) (num den : Nat) : Int :=
  let guess := (num.log2 : Int) - den.log2 - f.precision
  let (n, d) := scale num den guess
  max f.minExponent (if d <<< f.precision ≤ n then guess + 1 else guess)

/-- The magnitude nearest to `num / den`, a tie to the even one; infinity from half a place above
the largest finite number on. -/
def nearest (f : Format) (num den : Nat) : Nat :=
  if num = 0 then 0
  else
    let exponent := f.placeExponent num den
    let (n, d) := scale num den exponent
    min f.infinity ((exponent - f.minExponent).toNat <<< (f.precision - 1) + roundQuotient n d)

end Format

end PacketCodec.Binary
