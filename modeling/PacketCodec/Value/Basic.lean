import PacketCodec.Bytes
import PacketCodec.Decimal.Shortest
import PacketCodec.Table
import PacketCodec.Text.Quoted

/-!
# Dynamic values

What decoding yields and encoding consumes. An integer keeps the signedness of the scalar that it was
read from, but equality compares integers as numbers. Records keep the order of their fields.
-/

namespace PacketCodec

/-- A value of some schema. -/
inductive Value where
  /-- No value: an empty option, a missing field, a scalar without bytes. -/
  | null
  | bool (b : Bool)
  /-- An integer read from a signed scalar. -/
  | int (i : Int64)
  /-- An integer read from an unsigned scalar. -/
  | uint (u : UInt64)
  | float (x : Double)
  | string (s : String)
  | bytes (bs : Bytes)
  | array (items : List Value)
  | record (fields : List (String × Value))
  deriving Inhabited

/-- The named fields of a container, in order. -/
abbrev Record := Table Value

namespace Value

inductive Kind where
  | null
  | bool
  | integer
  | float
  | string
  | bytes
  | array
  | record
  deriving DecidableEq, Repr

def Kind.name : Kind → String
  | .null => "null"
  | .bool => "bool"
  | .integer => "integer"
  | .float => "float"
  | .string => "string"
  | .bytes => "bytes"
  | .array => "array"
  | .record => "record"

/-- The kind of a value; both signednesses of integer are one kind. -/
def kind : Value → Kind
  | .null => .null
  | .bool _ => .bool
  | .int _ => .integer
  | .uint _ => .integer
  | .float _ => .float
  | .string _ => .string
  | .bytes _ => .bytes
  | .array _ => .array
  | .record _ => .record

def isNull : Value → Bool
  | .null => true
  | _ => false

def asBool? : Value → Option Bool
  | .bool b => some b
  | _ => none

/-- The integer, if it fits a signed word of 64 bits. -/
def asInt? : Value → Option Int
  | .int i => some i.toInt
  | .uint u => if u.toNat < 0x8000000000000000 then some u.toNat else none
  | _ => none

/-- The integer, if it is not negative. -/
def asNat? : Value → Option Nat
  | .int i => if 0 ≤ i.toInt then some i.toInt.toNat else none
  | .uint u => some u.toNat
  | _ => none

/-- The number, an integer rounded to the nearest double. -/
def asDouble? : Value → Option Double
  | .float x => some x
  | .int i => some (Double.ofInt i.toInt)
  | .uint u => some (Double.ofInt u.toNat)
  | _ => none

def asString? : Value → Option String
  | .string s => some s
  | _ => none

def asBytes? : Value → Option Bytes
  | .bytes bs => some bs
  | _ => none

def asArray? : Value → Option (List Value)
  | .array items => some items
  | _ => none

def asRecord? : Value → Option Record
  | .record fields => some fields
  | _ => none

def ofInt? (i : Int) : Option Value :=
  if -0x8000000000000000 ≤ i ∧ i < 0x8000000000000000 then some (.int (Int64.ofInt i)) else none

def ofNat? (n : Nat) : Option Value :=
  if n < UInt64.size then some (.uint (UInt64.ofNat n)) else none

mutual

/-- Equality of values: integers compare as numbers whatever their signedness, floats numerically,
records field by field in order. -/
protected def beq : Value → Value → Bool
  | .null, .null => true
  | .bool a, .bool b => a == b
  | .int a, .int b => a == b
  | .uint a, .uint b => a == b
  | .int a, .uint b => a.toInt == (b.toNat : Int)
  | .uint a, .int b => b.toInt == (a.toNat : Int)
  | .float a, .float b => a == b
  | .string a, .string b => a == b
  | .bytes a, .bytes b => a == b
  | .array a, .array b => beqItems a b
  | .record a, .record b => beqFields a b
  | _, _ => false

def beqItems : List Value → List Value → Bool
  | [], [] => true
  | a :: as, b :: bs => Value.beq a b && beqItems as bs
  | _, _ => false

def beqFields : List (String × Value) → List (String × Value) → Bool
  | [], [] => true
  | (m, a) :: as, (n, b) :: bs => m == n && Value.beq a b && beqFields as bs
  | _, _ => false

end

instance : BEq Value := ⟨Value.beq⟩

mutual

/-- The text of a value: arrays in brackets, records in braces, strings quoted, bytes in
hexadecimal. -/
def render : Value → String
  | .null => "null"
  | .bool b => if b then "true" else "false"
  | .int i => toString i.toInt
  | .uint u => toString u.toNat
  | .float x => x.render
  | .string s => Text.quoted s
  | .bytes bs => "<" ++ bs.hex ++ ">"
  | .array items => "[" ++ ", ".intercalate (renderItems items) ++ "]"
  | .record fields => "\x7b" ++ ", ".intercalate (renderFields fields) ++ "\x7d"

def renderItems : List Value → List String
  | [] => []
  | item :: rest => render item :: renderItems rest

def renderFields : List (String × Value) → List String
  | [] => []
  | (name, value) :: rest => (name ++ ": " ++ render value) :: renderFields rest

end

end Value

namespace Record

def render (r : Record) : String := (Value.record r).render

end Record

end PacketCodec
