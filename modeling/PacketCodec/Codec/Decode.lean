import PacketCodec.Codec.Basic
import PacketCodec.Codec.Scalar

/-!
# Decoding

Reads one value at an offset. A container decodes its fields in order, each in a scope whose
innermost record holds the fields before it, so a switch sees what has been decoded already.
-/

namespace PacketCodec

def lengthOf (value : Value) : Except ReadError Nat :=
  match value.asNat? with
  | some n => .ok n
  | none => .error (.ofFault (.invalidLength value))

/-- Reads `count` items one after the other from an offset on. -/
def readItems (read : Nat → Except ReadError Decoded) :
    Nat → Nat → Except ReadError (List Value × Nat)
  | 0, _ => .ok ([], 0)
  | count + 1, offset => do
    let item ← read offset
    let (items, size) ← readItems read count (offset + item.size)
    return (item.value :: items, item.size + size)

/-- Refuses an item without bytes when more items are announced than bytes are left. -/
def guardZeroWidth (count remaining : Nat) (item : Decoded) : Except ReadError Decoded :=
  if item.size = 0 ∧ remaining < count then .error (.ofFault (.zeroWidthItems count remaining))
  else .ok item

namespace Codec

mutual

/-- The value at an offset and the number of bytes it takes. -/
def decode : Codec → Bytes → Scope → Nat → Except ReadError Decoded
  | .scalar p, buf, _, offset => do
    let (value, size) ← p.scalar.read buf offset
    return ⟨value, size⟩
  | .text count, buf, scope, offset => do
    let announced ← count.decode buf scope offset
    let length ← lengthOf announced.value
    let bs ← takeCounted buf (offset + announced.size) length
    match Utf8.decode bs with
    | .ok s => return ⟨.string s, announced.size + length⟩
    | .error fault => throw (.ofFault (.invalidText fault))
  | .block length, buf, _, offset => do
    let bs ← takeCounted buf offset length
    return ⟨.bytes bs, length⟩
  | .countedBlock count, buf, scope, offset => do
    let announced ← count.decode buf scope offset
    let length ← lengthOf announced.value
    let bs ← takeCounted buf (offset + announced.size) length
    return ⟨.bytes bs, announced.size + length⟩
  | .option inner, buf, scope, offset => do
    let presence ← takeBytes buf offset 1
    if presence = [0] then return ⟨.null, 1⟩
    else
      let item ← inner.decode buf scope (offset + 1)
      return ⟨item.value, item.size + 1⟩
  | .array element length, buf, scope, offset => do
    let (items, size) ← readItems (fun place => element.decode buf scope place) length offset
    return ⟨.array items, size⟩
  | .countedArray count element, buf, scope, offset => do
    let announced ← count.decode buf scope offset
    let length ← lengthOf announced.value
    let start := offset + announced.size
    let remaining := buf.length - start
    let (items, size) ← readItems
      (fun place => element.decode buf scope place >>= guardZeroWidth length remaining) length start
    return ⟨.array items, announced.size + size⟩
  | .container fields, buf, scope, offset => do
    let (record, size) ← decodeFields fields buf scope offset []
    return ⟨.record record, size⟩
  | .switch on branches default _, buf, scope, offset =>
    match on.key scope with
    | .error fault => .error (.ofFault (.discriminant fault))
    | .ok key =>
      match decodeBranch branches key buf scope offset with
      | some outcome => outcome
      | none => default.decode buf scope offset

/-- The record that the fields at an offset extend, and the number of bytes they take. -/
def decodeFields : List (String × Codec) → Bytes → Scope → Nat → Record →
    Except ReadError (Record × Nat)
  | [], _, _, _, record => .ok (record, 0)
  | (name, c) :: rest, buf, scope, offset, record => do
    let item ← (c.decode buf (record :: scope) offset).mapError (ReadError.within name)
    let (record, size) ←
      decodeFields rest buf scope (offset + item.size) (Table.push record name item.value)
    return (record, item.size + size)

def decodeBranch : List (String × Codec) → String → Bytes → Scope → Nat →
    Option (Except ReadError Decoded)
  | [], _, _, _, _ => none
  | (k, c) :: rest, key, buf, scope, offset =>
    if k = key then some (c.decode buf scope offset) else decodeBranch rest key buf scope offset

end

end Codec

end PacketCodec
