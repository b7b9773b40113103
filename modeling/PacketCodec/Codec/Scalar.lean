import PacketCodec.Codec.Varint
import PacketCodec.Schema.Primitive

/-!
# Scalars as bytes

The value that the bytes of a scalar stand for, and the bytes of a value that suits a scalar.
-/

namespace PacketCodec

def takeBytes (buf : Bytes) (offset count : Nat) : Except ReadError Bytes :=
  match buf.slice? offset count with
  | some bs => .ok bs
  | none => .error (.incomplete (min (offset + count) Bytes.maxOffset) buf.length)

/-- The bytes at an offset whose number was decoded. A length that leads past the largest offset
is wrong, however many bytes follow. -/
def takeCounted (buf : Bytes) (offset count : Nat) : Except ReadError Bytes :=
  if Bytes.maxOffset < offset + count then .error (.ofFault (.lengthOverflow count))
  else takeBytes buf offset count

namespace Scalar

/-- The number in two's complement of `width` bytes that an unsigned number stands for. -/
def toSigned (width n : Nat) : Int :=
  if n < Bytes.bound width / 2 then n else (n : Int) - Bytes.bound width

def ofSigned (width : Nat) (i : Int) : Nat :=
  (i % Bytes.bound width).toNat

/-- The value of a scalar at an offset, and how many bytes it takes. -/
def read (s : Scalar) (buf : Bytes) (offset : Nat) : Except ReadError (Value × Nat) :=
  match s with
  | .unsigned order width => do
    let bs ← takeBytes buf offset width
    return (.uint (UInt64.ofNat (Bytes.toNat order bs)), width)
  | .signed order width => do
    let bs ← takeBytes buf offset width
    return (.int (Int64.ofInt (toSigned width (Bytes.toNat order bs))), width)
  | .single order => do
    let bs ← takeBytes buf offset 4
    return (.float (Double.ofSingleBits (Bytes.toNat order bs)), 4)
  | .double order => do
    let bs ← takeBytes buf offset 8
    return (.float ⟨UInt64.ofNat (Bytes.toNat order bs)⟩, 8)
  | .bool => do
    let bs ← takeBytes buf offset 1
    return (.bool (bs != [0]), 1)
  | .varint => do
    let (bits, size) ← Varint.read buf offset
    return (.int (Int64.ofInt (Varint.toInt bits)), size)
  | .void => return (.null, 0)

def expectNat (type : String) (bound : Nat) (value : Value) : Except EncodeFault Nat :=
  match value.asNat? with
  | none => .error (.expectedNatural type value)
  | some n => if n < bound then .ok n else .error (.outOfRange type n)

def expectInt (type : String) (low high : Int) (value : Value) : Except EncodeFault Int :=
  match value.asInt? with
  | none => .error (.expectedInteger type value)
  | some i => if low ≤ i ∧ i < high then .ok i else .error (.outOfRange type i)

def expectDouble (type : String) (value : Value) : Except EncodeFault Double :=
  match value.asDouble? with
  | none => .error (.expectedNumber type value)
  | some x => .ok x

def expectBool (value : Value) : Except EncodeFault Bool :=
  match value.asBool? with
  | none => .error (.expectedBool value)
  | some b => .ok b

/-- The 32 bits of a variable-length integer. -/
def expectVarint (type : String) (value : Value) : Except EncodeFault Nat :=
  match value.asInt? with
  | none => .error (.expectedInteger type value)
  | some i =>
    match Varint.bits? i with
    | none => .error (.outOfRange type i)
    | some bits => .ok bits

/-- The bytes of a value under a scalar, whose name messages give. -/
def encode (type : String) (s : Scalar) (value : Value) : Except EncodeFault Bytes :=
  match s with
  | .unsigned order width => do
    let n ← expectNat type (Bytes.bound width) value
    return Bytes.ofNat order width n
  | .signed order width => do
    let i ← expectInt type (-(Bytes.bound width / 2 : Nat)) (Bytes.bound width / 2 : Nat) value
    return Bytes.ofNat order width (ofSigned width i)
  | .single order => do
    let x ← expectDouble type value
    return Bytes.ofNat order 4 x.toSingleBits
  | .double order => do
    let x ← expectDouble type value
    return Bytes.ofNat order 8 x.bits.toNat
  | .bool => do
    let b ← expectBool value
    return [if b then 1 else 0]
  | .varint => do
    let bits ← expectVarint type value
    return Varint.encode bits
  | .void => return []

/-- The number of bytes of a value under a scalar. A value that has no bytes has no size either. -/
def measure (type : String) (s : Scalar) (value : Value) : Except EncodeFault Nat :=
  match s with
  | .unsigned _ width => do
    let _ ← expectNat type (Bytes.bound width) value
    return width
  | .signed _ width => do
    let _ ← expectInt type (-(Bytes.bound width / 2 : Nat)) (Bytes.bound width / 2 : Nat) value
    return width
  | .single _ => do
    let _ ← expectDouble type value
    return 4
  | .double _ => do
    let _ ← expectDouble type value
    return 8
  | .bool => do
    let _ ← expectBool value
    return 1
  | .varint => do
    let bits ← expectVarint type value
    return Varint.size bits
  | .void => return 0

/-- How the bytes of a scalar are written: all at once, but a variable-length integer byte by byte
and a scalar without bytes not at all. -/
def pieces (s : Scalar) (bs : Bytes) : List Bytes :=
  match s with
  | .varint => bs.map fun b => [b]
  | .void => []
  | _ => [bs]

end Scalar

end PacketCodec
