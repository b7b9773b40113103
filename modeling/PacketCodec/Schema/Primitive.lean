import PacketCodec.Bytes

/-!
# Primitive types

The scalars that a schema may name, and how each is laid out.
-/

namespace PacketCodec

inductive Primitive where
  | u8
  | u16
  | u32
  | u64
  | i8
  | i16
  | i32
  | i64
  | lu16
  | lu32
  | lu64
  | li16
  | li32
  | li64
  | f32
  | f64
  | lf32
  | lf64
  | bool
  | varint
  | void
  deriving DecidableEq, Repr

/-- The layout of a scalar. -/
inductive Scalar where
  /-- An unsigned number of `width` bytes. -/
  | unsigned (order : ByteOrder) (width : Nat)
  /-- A number of `width` bytes in two's complement. -/
  | signed (order : ByteOrder) (width : Nat)
  /-- A binary floating-point number of 4 bytes. -/
  | single (order : ByteOrder)
  /-- A binary floating-point number of 8 bytes. -/
  | double (order : ByteOrder)
  /-- One byte, true unless it is zero. -/
  | bool
  /-- Groups of seven bits, lowest first, at most 32 bits in all. -/
  | varint
  | void
  deriving DecidableEq, Repr

namespace Primitive

def all : List Primitive :=
  [u8, u16, u32, u64, i8, i16, i32, i64, lu16, lu32, lu64, li16, li32, li64, f32, f64, lf32, lf64,
    bool, varint, void]

def name : Primitive → String
  | u8 => "u8"
  | u16 => "u16"
  | u32 => "u32"
  | u64 => "u64"
  | i8 => "i8"
  | i16 => "i16"
  | i32 => "i32"
  | i64 => "i64"
  | lu16 => "lu16"
  | lu32 => "lu32"
  | lu64 => "lu64"
  | li16 => "li16"
  | li32 => "li32"
  | li64 => "li64"
  | f32 => "f32"
  | f64 => "f64"
  | lf32 => "lf32"
  | lf64 => "lf64"
  | bool => "bool"
  | varint => "varint"
  | void => "void"

def ofName? (text : String) : Option Primitive :=
  all.find? fun p => p.name == text

def scalar : Primitive → Scalar
  | u8 => .unsigned .big 1
  | u16 => .unsigned .big 2
  | u32 => .unsigned .big 4
  | u64 => .unsigned .big 8
  | i8 => .signed .big 1
  | i16 => .signed .big 2
  | i32 => .signed .big 4
  | i64 => .signed .big 8
  | lu16 => .unsigned .little 2
  | lu32 => .unsigned .little 4
  | lu64 => .unsigned .little 8
  | li16 => .signed .little 2
  | li32 => .signed .little 4
  | li64 => .signed .little 8
  | f32 => .single .big
  | f64 => .double .big
  | lf32 => .single .little
  | lf64 => .double .little
  | bool => .bool
  | varint => .varint
  | void => .void

theorem ofName?_name (p : Primitive) : ofName? p.name = some p := by
  cases p <;> decide

end Primitive

def Scalar.fixedSize : Scalar → Option Nat
  | .unsigned _ width => some width
  | .signed _ width => some width
  | .single _ => some 4
  | .double _ => some 8
  | .bool => some 1
  | .varint => none
  | .void => some 0

end PacketCodec
