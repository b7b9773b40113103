import PacketCodec.Codec.Basic
import PacketCodec.Codec.Emission
import PacketCodec.Codec.Scalar

/-!
# Encoding

The emission of a value under a codec. A container looks each field up by name in the record, a field
that is missing counting as null, and encodes it in the scope of the whole record.
-/

namespace PacketCodec

/-- The items of a value that must be an array, of a given length if one is declared. -/
def expectItems (declared : Option Nat) (value : Value) : Except EncodeFault (List Value) :=
  match value.asArray? with
  | none => .error (.expectedArray value.kind)
  | some items =>
    match declared with
    | some n => if n = items.length then .ok items else .error (.arrayLength n items.length)
    | none => .ok items

/-- The content of a value that must be bytes, of a given length if one is declared. -/
def expectBytes (declared : Option Nat) (value : Value) : Except EncodeFault Bytes :=
  match value.asBytes? with
  | none => .error (.expectedBytes value.kind)
  | some bs =>
    match declared with
    | some n => if n = bs.length then .ok bs else .error (.bufferLength n bs.length)
    | none => .ok bs

def expectText (value : Value) : Except EncodeFault Bytes :=
  match value.asString? with
  | none => .error (.expectedString value.kind)
  | some text => .ok (Utf8.encode text)

def expectRecord (value : Value) : Except EncodeFault Record :=
  match value.asRecord? with
  | none => .error (.expectedRecord value.kind)
  | some fields => .ok fields

/-- The value of a field, null where the record has none of that name. -/
def fieldValue (record : Record) (name : String) : Value :=
  (Table.get? record name).getD .null

def countValue (n : Nat) : Except EncodeFault Value :=
  match Value.ofNat? n with
  | some v => .ok v
  | none => .error (.uncountable n)

namespace Emission

/-- The emission that a checked value gives rise to, or the fault of the check. -/
def ofExcept {α : Type} (checked : Except EncodeFault α) (emit : α → Emission) : Emission :=
  match checked with
  | .ok a => emit a
  | .error fault => .fail fault

def items (emit : Value → Emission) : List Value → Emission
  | [] => .empty
  | item :: rest => emit item ++ items emit rest

end Emission

namespace Codec

mutual

/-- The emission of a value. -/
def emit : Codec → Scope → Value → Emission
  | .scalar p, _, value =>
    .ofExcept (p.scalar.encode p.name value) fun bs =>
      ⟨(p.scalar.pieces bs).map fun piece => ⟨[], piece⟩, none⟩
  | .text count, scope, value =>
    .ofExcept (expectText value) fun bs =>
      .ofExcept (countValue bs.length) (fun n => count.emit scope n) ++ .piece bs
  | .block length, _, value =>
    .ofExcept (expectBytes (some length) value) .piece
  | .countedBlock count, scope, value =>
    .ofExcept (expectBytes none value) fun bs =>
      .ofExcept (countValue bs.length) (fun n => count.emit scope n) ++ .piece bs
  | .option inner, scope, value =>
    match value with
    | .null => .piece [0]
    | value => .piece [1] ++ inner.emit scope value
  | .array element length, scope, value =>
    .ofExcept (expectItems (some length) value) fun items =>
      .items (fun item => element.emit scope item) items
  | .countedArray count element, scope, value =>
    .ofExcept (expectItems none value) fun items =>
      .ofExcept (countValue items.length) (fun n => count.emit scope n) ++
        .items (fun item => element.emit scope item) items
  | .container fields, scope, value =>
    .ofExcept (expectRecord value) fun record => emitFields fields scope record
  | .switch on branches default _, scope, value =>
    .ofExcept ((on.key scope).mapError EncodeFault.discriminant) fun key =>
      match emitBranch branches key scope value with
      | some emission => emission
      | none => default.emit scope value

def emitFields : List (String × Codec) → Scope → Record → Emission
  | [], _, _ => .empty
  | (name, c) :: rest, scope, record =>
    (c.emit (record :: scope) (fieldValue record name)).within name ++ emitFields rest scope record

def emitBranch : List (String × Codec) → String → Scope → Value → Option Emission
  | [], _, _, _ => none
  | (k, c) :: rest, key, scope, value =>
    if k = key then some (c.emit scope value) else emitBranch rest key scope value

end

def encode (c : Codec) (scope : Scope) (value : Value) (dest : Bytes) (offset : Nat) : Placement :=
  (c.emit scope value).place dest offset

end Codec

end PacketCodec
