import PacketCodec.Proofs.Codec.Placement

/-!
# Raising errors

Decoding, measuring and encoding fail with errors of types of their own, which say no more than each of them has
to say. Here they share one type of errors and choose the kind of an error where they raise it: missing bytes are a
partial read, a fault in the bytes one of decoding, a fault of the value one of encoding. Helpers that they have in
common leave the choice to the caller, and a container puts the name of a field to whatever error comes out
of the field.
-/

namespace PacketCodec

namespace Error

def ofDecodeFault (fault : DecodeFault) : Error := .decode (.here fault)

def ofEncodeFault (fault : EncodeFault) : Error := .encode (.here fault)

/-- An error seen from outside a field. Only faults of decoding and of encoding tell of the field. -/
def inField (name : String) : Error → Error
  | .decode e => .decode (e.within name)
  | .encode e => .encode (e.within name)
  | e => e

@[simp] theorem inField_ofRead (name : String) (e : ReadError) :
    (ofRead e).inField name = ofRead (e.within name) := by
  cases e <;> rfl

end Error

namespace Raising

open Error

def takeBytes (buf : Bytes) (offset count : Nat) : Except Error Bytes :=
  match buf.slice? offset count with
  | some bs => .ok bs
  | none => .error (.partialRead (min (offset + count) Bytes.maxOffset) buf.length)

def takeCounted (buf : Bytes) (offset count : Nat) : Except Error Bytes :=
  if Bytes.maxOffset < offset + count then .error (ofDecodeFault (.lengthOverflow count))
  else takeBytes buf offset count

def readByte (buf : Bytes) (offset : Nat) : Except Error UInt8 :=
  match buf[offset]? with
  | some b => .ok b
  | none => .error (.partialRead (min (offset + 1) Bytes.maxOffset) buf.length)

def readGroups (buf : Bytes) : Nat → Nat → Except Error (Nat × Nat)
  | 0, _ => .error (ofDecodeFault .varintTooLong)
  | left + 1, offset => do
    let b ← readByte buf offset
    if b < 128 then return (b.toNat, 1)
    else
      let (high, size) ← readGroups buf left (offset + 1)
      return (b.toNat - 128 + 128 * high, size + 1)

def readScalar (s : Scalar) (buf : Bytes) (offset : Nat) : Except Error (Value × Nat) :=
  match s with
  | .unsigned order width => do
    let bs ← takeBytes buf offset width
    return (.uint (UInt64.ofNat (Bytes.toNat order bs)), width)
  | .signed order width => do
    let bs ← takeBytes buf offset width
    return (.int (Int64.ofInt (Scalar.toSigned width (Bytes.toNat order bs))), width)
  | .single order => do
    let bs ← takeBytes buf offset 4
    return (.float (Double.ofSingleBits (Bytes.toNat order bs)), 4)
  | .double order => do
    let bs ← takeBytes buf offset 8
    return (.float ⟨UInt64.ofNat (Bytes.toNat order bs)⟩, 8)
  | .bool => do
    let bs ← takeBytes buf offset 1
    return (.bool (bs != [0]), 1)
  | .varint => do
    let (bits, size) ← readGroups buf Varint.maxGroups offset
    return (.int (Int64.ofInt (Varint.toInt (bits % UInt32.size))), size)
  | .void => return (.null, 0)

def lengthOf (value : Value) : Except Error Nat :=
  match value.asNat? with
  | some n => .ok n
  | none => .error (ofDecodeFault (.invalidLength value))

def readItems (read : Nat → Except Error Decoded) : Nat → Nat → Except Error (List Value × Nat)
  | 0, _ => .ok ([], 0)
  | count + 1, offset => do
    let item ← read offset
    let (items, size) ← readItems read count (offset + item.size)
    return (item.value :: items, item.size + size)

def guardZeroWidth (count remaining : Nat) (item : Decoded) : Except Error Decoded :=
  if item.size = 0 ∧ remaining < count then
    .error (ofDecodeFault (.zeroWidthItems count remaining))
  else .ok item

/-- The key that a switch selects by, for whatever its caller is doing. How a fault is raised is up to that. -/
def selectKey (on : Discriminant) (scope : Scope) (fail : DiscriminantFault → Error) :
    Except Error String := do
  let value ← match on with
    | .constant v => .ok v
    | .field path =>
      match scope.lookup path with
      | some v => .ok v
      | none => .error (fail (.missing path))
  match value.branchKey? with
  | some key => return key
  | none => throw (fail (.unsuitable value.kind))

/-- A check of a value, whose fault is one of encoding. -/
def expecting {α : Type} (outcome : Except EncodeFault α) : Except Error α :=
  outcome.mapError ofEncodeFault

def sumSizes (measure : Value → Except Error Nat) : List Value → Except Error Nat
  | [] => .ok 0
  | item :: rest => do
    let size ← measure item
    let sizes ← sumSizes measure rest
    return size + sizes

def checkItems (measure : Value → Except Error Nat) : List Value → Except Error Unit
  | [] => .ok ()
  | item :: rest => do
    let _ ← measure item
    checkItems measure rest

def itemsSize (fixed : Option Nat) (measure : Value → Except Error Nat) (items : List Value) :
    Except Error Nat :=
  match fixed with
  | some each => do
    checkItems measure items
    return items.length * each
  | none => sumSizes measure items

/-- Writing into a destination, with errors of any kind. -/
abbrev Writing (α : Type) := ExceptT Error (StateM Bytes) α

def put (bs : Bytes) (offset : Nat) : Writing Nat := do
  let dest ← get
  if offset + bs.length ≤ dest.length then
    set (dest.overwrite offset bs)
    return offset + bs.length
  else throw (ofEncodeFault (.noRoom (min (offset + bs.length) Bytes.maxOffset) dest.length))

def putEach : List Bytes → Nat → Writing Nat
  | [], offset => return offset
  | bs :: rest, offset => do
    let offset ← put bs offset
    putEach rest offset

def writeItems (write : Value → Nat → Writing Nat) : List Value → Nat → Writing Nat
  | [], offset => return offset
  | item :: rest, offset => do
    let offset ← write item offset
    writeItems write rest offset

/-- The writing seen from outside a field. -/
def writeWithin {α : Type} (name : String) (w : Writing α) : Writing α :=
  ExceptT.mk (w.run.map fun outcome => outcome.mapError (inField name))

end Raising

namespace Codec

open Raising Error

mutual

/-- Decodes a value and raises an error where one comes up. -/
def decodeRaising : Codec → Bytes → Scope → Nat → Except Error Decoded
  | .scalar p, buf, _, offset => do
    let (value, size) ← readScalar p.scalar buf offset
    return ⟨value, size⟩
  | .text count, buf, scope, offset => do
    let announced ← count.decodeRaising buf scope offset
    let length ← Raising.lengthOf announced.value
    let bs ← Raising.takeCounted buf (offset + announced.size) length
    match Utf8.decode bs with
    | .ok s => return ⟨.string s, announced.size + length⟩
    | .error fault => throw (ofDecodeFault (.invalidText fault))
  | .block length, buf, _, offset => do
    let bs ← Raising.takeCounted buf offset length
    return ⟨.bytes bs, length⟩
  | .countedBlock count, buf, scope, offset => do
    let announced ← count.decodeRaising buf scope offset
    let length ← Raising.lengthOf announced.value
    let bs ← Raising.takeCounted buf (offset + announced.size) length
    return ⟨.bytes bs, announced.size + length⟩
  | .option inner, buf, scope, offset => do
    let presence ← Raising.takeBytes buf offset 1
    if presence = [0] then return ⟨.null, 1⟩
    else
      let item ← inner.decodeRaising buf scope (offset + 1)
      return ⟨item.value, item.size + 1⟩
  | .array element length, buf, scope, offset => do
    let (items, size) ←
      Raising.readItems (fun place => element.decodeRaising buf scope place) length offset
    return ⟨.array items, size⟩
  | .countedArray count element, buf, scope, offset => do
    let announced ← count.decodeRaising buf scope offset
    let length ← Raising.lengthOf announced.value
    let start := offset + announced.size
    let remaining := buf.length - start
    let (items, size) ← Raising.readItems
      (fun place => element.decodeRaising buf scope place >>= Raising.guardZeroWidth length remaining)
      length start
    return ⟨.array items, announced.size + size⟩
  | .container fields, buf, scope, offset => do
    let (record, size) ← decodeFieldsRaising fields buf scope offset []
    return ⟨.record record, size⟩
  | .switch on branches default _, buf, scope, offset => do
    let key ← selectKey on scope fun fault => ofDecodeFault (.discriminant fault)
    match decodeBranchRaising branches key buf scope offset with
    | some outcome => outcome
    | none => default.decodeRaising buf scope offset

def decodeFieldsRaising : List (String × Codec) → Bytes → Scope → Nat → Record →
    Except Error (Record × Nat)
  | [], _, _, _, record => .ok (record, 0)
  | (name, c) :: rest, buf, scope, offset, record => do
    let item ← (c.decodeRaising buf (record :: scope) offset).mapError (inField name)
    let (record, size) ←
      decodeFieldsRaising rest buf scope (offset + item.size) (Table.push record name item.value)
    return (record, item.size + size)

def decodeBranchRaising : List (String × Codec) → String → Bytes → Scope → Nat →
    Option (Except Error Decoded)
  | [], _, _, _, _ => none
  | (k, c) :: rest, key, buf, scope, offset =>
    if k = key then some (c.decodeRaising buf scope offset)
    else decodeBranchRaising rest key buf scope offset

end

mutual

/-- Measures a value and raises an error where one comes up. -/
def measureRaising : Codec → Scope → Value → Except Error Nat
  | .scalar p, _, value => expecting (p.scalar.measure p.name value)
  | .text count, scope, value => do
    let bs ← expecting (expectText value)
    let n ← expecting (countValue bs.length)
    let size ← count.measureRaising scope n
    return size + bs.length
  | .block length, _, value => do
    let bs ← expecting (expectBytes (some length) value)
    return bs.length
  | .countedBlock count, scope, value => do
    let bs ← expecting (expectBytes none value)
    let n ← expecting (countValue bs.length)
    let size ← count.measureRaising scope n
    return size + bs.length
  | .option inner, scope, value =>
    match value with
    | .null => return 1
    | value => do
      let size ← inner.measureRaising scope value
      return 1 + size
  | .array element length, scope, value => do
    let items ← expecting (expectItems (some length) value)
    Raising.itemsSize element.fixedSize (fun item => element.measureRaising scope item) items
  | .countedArray count element, scope, value => do
    let items ← expecting (expectItems none value)
    let n ← expecting (countValue items.length)
    let size ← count.measureRaising scope n
    let sizes ←
      Raising.itemsSize element.fixedSize (fun item => element.measureRaising scope item) items
    return size + sizes
  | .container fields, scope, value => do
    let record ← expecting (expectRecord value)
    measureFieldsRaising fields scope record
  | .switch on branches default fixed, scope, value => do
    let key ← selectKey on scope fun fault => ofEncodeFault (.discriminant fault)
    let size ←
      match measureBranchRaising branches key scope value with
      | some outcome => outcome
      | none => default.measureRaising scope value
    return fixed.getD size

def measureFieldsRaising : List (String × Codec) → Scope → Record → Except Error Nat
  | [], _, _ => .ok 0
  | (name, c) :: rest, scope, record => do
    let size ← (c.measureRaising (record :: scope) (fieldValue record name)).mapError (inField name)
    let sizes ← measureFieldsRaising rest scope record
    return size + sizes

def measureBranchRaising : List (String × Codec) → String → Scope → Value →
    Option (Except Error Nat)
  | [], _, _, _ => none
  | (k, c) :: rest, key, scope, value =>
    if k = key then some (c.measureRaising scope value) else measureBranchRaising rest key scope value

end

mutual

/-- Writes a value from an offset on and raises an error where one comes up. -/
def writeRaising : Codec → Scope → Value → Nat → Raising.Writing Nat
  | .scalar p, _, value, offset => do
    let bs ← expecting (p.scalar.encode p.name value)
    Raising.putEach (p.scalar.pieces bs) offset
  | .text count, scope, value, offset => do
    let bs ← expecting (expectText value)
    let n ← expecting (countValue bs.length)
    let offset ← count.writeRaising scope n offset
    Raising.put bs offset
  | .block length, _, value, offset => do
    let bs ← expecting (expectBytes (some length) value)
    Raising.put bs offset
  | .countedBlock count, scope, value, offset => do
    let bs ← expecting (expectBytes none value)
    let n ← expecting (countValue bs.length)
    let offset ← count.writeRaising scope n offset
    Raising.put bs offset
  | .option inner, scope, value, offset =>
    match value with
    | .null => Raising.put [0] offset
    | value => do
      let offset ← Raising.put [1] offset
      inner.writeRaising scope value offset
  | .array element length, scope, value, offset => do
    let values ← expecting (expectItems (some length) value)
    writeItems (fun item => element.writeRaising scope item) values offset
  | .countedArray count element, scope, value, offset => do
    let values ← expecting (expectItems none value)
    let n ← expecting (countValue values.length)
    let offset ← count.writeRaising scope n offset
    writeItems (fun item => element.writeRaising scope item) values offset
  | .container fields, scope, value, offset => do
    let record ← expecting (expectRecord value)
    writeFieldsRaising fields scope record offset
  | .switch on branches default _, scope, value, offset => do
    let key ← selectKey on scope fun fault => ofEncodeFault (.discriminant fault)
    match writeBranchRaising branches key scope value offset with
    | some w => w
    | none => default.writeRaising scope value offset

def writeFieldsRaising : List (String × Codec) → Scope → Record → Nat → Raising.Writing Nat
  | [], _, _, offset => return offset
  | (name, c) :: rest, scope, record, offset => do
    let offset ← writeWithin name (c.writeRaising (record :: scope) (fieldValue record name) offset)
    writeFieldsRaising rest scope record offset

def writeBranchRaising : List (String × Codec) → String → Scope → Value → Nat →
    Option (Raising.Writing Nat)
  | [], _, _, _, _ => none
  | (k, c) :: rest, key, scope, value, offset =>
    if k = key then some (c.writeRaising scope value offset)
    else writeBranchRaising rest key scope value offset

end

end Codec

end PacketCodec
