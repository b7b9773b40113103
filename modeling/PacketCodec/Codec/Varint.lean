import PacketCodec.Error

/-!
# Variable-length integers

Numbers of up to 32 bits in groups of seven bits, lowest first; the top bit of a byte says that
another group follows. At most five groups are read, and of the last only the bits that fit count.
-/

namespace PacketCodec.Varint

def maxGroups : Nat := 5

def readByte (buf : Bytes) (offset : Nat) : Except ReadError UInt8 :=
  match buf[offset]? with
  | some b => .ok b
  | none => .error (.incomplete (min (offset + 1) Bytes.maxOffset) buf.length)

/-- The number that at most `left` groups spell, and how many there are. -/
def readGroups (buf : Bytes) : Nat → Nat → Except ReadError (Nat × Nat)
  | 0, _ => .error (.ofFault .varintTooLong)
  | left + 1, offset => do
    let b ← readByte buf offset
    if b < 128 then return (b.toNat, 1)
    else
      let (high, size) ← readGroups buf left (offset + 1)
      return (b.toNat - 128 + 128 * high, size + 1)

def read (buf : Bytes) (offset : Nat) : Except ReadError (Nat × Nat) := do
  let (n, size) ← readGroups buf maxGroups offset
  return (n % UInt32.size, size)

def groups : Nat → Nat → Bytes
  | 0, _ => []
  | left + 1, n =>
    if n < 128 then [UInt8.ofNat n] else UInt8.ofNat (n % 128 + 128) :: groups left (n / 128)

def encode (n : Nat) : Bytes := groups maxGroups n

def groupCount : Nat → Nat → Nat
  | 0, _ => 0
  | left + 1, n => if n < 128 then 1 else groupCount left (n / 128) + 1

def size (n : Nat) : Nat := groupCount maxGroups n

/-- The 32 bits of an integer, signed or unsigned, if it fits. -/
def bits? (i : Int) : Option Nat :=
  if -0x80000000 ≤ i ∧ i < UInt32.size then some (i % UInt32.size).toNat else none

def toInt (bits : Nat) : Int :=
  if bits < 0x80000000 then bits else (bits : Int) - UInt32.size

end PacketCodec.Varint
