/-!
# Byte sequences

Fixed-width numbers in either byte order, slices and overwrites at an offset, and hexadecimal text.
Writing a number that fits its width and reading it back is the identity, in both directions.
-/

namespace PacketCodec

/-- A finite sequence of bytes. -/
abbrev Bytes := List UInt8

inductive ByteOrder where
  | big
  | little
  deriving DecidableEq, Repr

namespace Bytes

/-- The largest offset into a byte sequence: offsets are words of 64 bits. -/
def maxOffset : Nat := UInt64.size - 1

/-- The least number that does not fit in `width` bytes. -/
def bound : Nat → Nat
  | 0 => 1
  | width + 1 => 256 * bound width

/-- The `width` lowest base-256 digits of a number, lowest first. -/
def ofNatLittle : Nat → Nat → Bytes
  | 0, _ => []
  | width + 1, n => UInt8.ofNat n :: ofNatLittle width (n / 256)

def toNatLittle : Bytes → Nat
  | [] => 0
  | b :: bs => b.toNat + 256 * toNatLittle bs

/-- The `width` lowest bytes of a number in a byte order. -/
def ofNat (order : ByteOrder) (width n : Nat) : Bytes :=
  match order with
  | .little => ofNatLittle width n
  | .big => (ofNatLittle width n).reverse

def toNat (order : ByteOrder) (bs : Bytes) : Nat :=
  match order with
  | .little => toNatLittle bs
  | .big => toNatLittle bs.reverse

theorem bound_mono {m n : Nat} (h : m ≤ n) : bound m ≤ bound n := by
  induction h with
  | refl => exact Nat.le_refl _
  | step _ ih => exact Nat.le_trans ih (Nat.le_mul_of_pos_left _ (by decide))

@[simp]
theorem length_ofNatLittle (width n : Nat) : (ofNatLittle width n).length = width := by
  induction width generalizing n with
  | zero => rfl
  | succ width ih => simp [ofNatLittle, ih]

@[simp]
theorem length_ofNat (order : ByteOrder) (width n : Nat) : (ofNat order width n).length = width := by
  cases order <;> simp [ofNat]

theorem toNatLittle_ofNatLittle (width n : Nat) :
    toNatLittle (ofNatLittle width n) = n % bound width := by
  induction width generalizing n with
  | zero => simp [ofNatLittle, toNatLittle, bound, Nat.mod_one]
  | succ width ih =>
    have hb : (UInt8.ofNat n).toNat = n % 256 := by simp
    rw [ofNatLittle, toNatLittle, ih, hb, bound, Nat.mod_mul]

theorem toNat_ofNat (order : ByteOrder) {width n : Nat} (h : n < bound width) :
    toNat order (ofNat order width n) = n := by
  cases order <;> simp [toNat, ofNat, toNatLittle_ofNatLittle, Nat.mod_eq_of_lt h]

theorem toNatLittle_lt (bs : Bytes) : toNatLittle bs < bound bs.length := by
  induction bs with
  | nil => exact Nat.one_pos
  | cons b bs ih =>
    have hb := b.toNat_lt
    simp only [toNatLittle, List.length_cons, bound]
    omega

theorem toNat_lt (order : ByteOrder) (bs : Bytes) : toNat order bs < bound bs.length := by
  cases order with
  | little => exact toNatLittle_lt bs
  | big => simpa [toNat] using toNatLittle_lt bs.reverse

private theorem ofNatLittle_toNatLittle (bs : Bytes) :
    ofNatLittle bs.length (toNatLittle bs) = bs := by
  induction bs with
  | nil => rfl
  | cons b bs ih =>
    have hb := b.toNat_lt
    simp only [toNatLittle, List.length_cons, ofNatLittle, List.cons.injEq]
    constructor
    · apply UInt8.toNat_inj.1
      simp only [UInt8.toNat_ofNat']
      omega
    · rw [show (b.toNat + 256 * toNatLittle bs) / 256 = toNatLittle bs by omega, ih]

theorem ofNat_toNat (order : ByteOrder) (bs : Bytes) : ofNat order bs.length (toNat order bs) = bs := by
  cases order with
  | little => exact ofNatLittle_toNatLittle bs
  | big =>
    have h := ofNatLittle_toNatLittle bs.reverse
    rw [List.length_reverse] at h
    simp [ofNat, toNat, h]

def slice? (bs : Bytes) (offset count : Nat) : Option Bytes :=
  if offset + count ≤ bs.length then some ((bs.drop offset).take count) else none

/-- The sequence with `chunk` written over it from an offset on. -/
def overwrite (bs : Bytes) (offset : Nat) (chunk : Bytes) : Bytes :=
  bs.take offset ++ chunk ++ bs.drop (offset + chunk.length)

def hexDigits (b : UInt8) : List Char :=
  [Nat.digitChar (b.toNat / 16), Nat.digitChar (b.toNat % 16)]

def hex (bs : Bytes) : String :=
  String.ofList (bs.flatMap hexDigits)

def hexValue? (c : Char) : Option Nat :=
  if '0' ≤ c ∧ c ≤ '9' then some (c.toNat - '0'.toNat)
  else if 'a' ≤ c ∧ c ≤ 'f' then some (c.toNat - 'a'.toNat + 10)
  else if 'A' ≤ c ∧ c ≤ 'F' then some (c.toNat - 'A'.toNat + 10)
  else none

def ofHexDigits? : List Char → Option Bytes
  | [] => some []
  | [_] => none
  | hi :: lo :: rest => do
    let hi ← hexValue? hi
    let lo ← hexValue? lo
    let bs ← ofHexDigits? rest
    return UInt8.ofNat (16 * hi + lo) :: bs

def ofHex? (text : String) : Option Bytes :=
  ofHexDigits? text.toList

end Bytes

end PacketCodec
