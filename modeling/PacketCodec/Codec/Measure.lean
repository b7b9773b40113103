import PacketCodec.Codec.Encode

/-!
# Measuring

The number of bytes that a value takes under a codec, without encoding it. A value is checked as
encoding checks it; where the codec alone tells the size, only the check is left to do.
-/

namespace PacketCodec

def sumSizes (measure : Value → Except EncodeError Nat) : List Value → Except EncodeError Nat
  | [] => .ok 0
  | item :: rest => do
    let size ← measure item
    let sizes ← sumSizes measure rest
    return size + sizes

def checkItems (measure : Value → Except EncodeError Nat) : List Value → Except EncodeError Unit
  | [] => .ok ()
  | item :: rest => do
    let _ ← measure item
    checkItems measure rest

/-- The size of items, of which each takes `fixed` bytes if that is known. -/
def itemsSize (fixed : Option Nat) (measure : Value → Except EncodeError Nat)
    (items : List Value) : Except EncodeError Nat :=
  match fixed with
  | some each => do
    checkItems measure items
    return items.length * each
  | none => sumSizes measure items

def checked {α : Type} (outcome : Except EncodeFault α) : Except EncodeError α :=
  outcome.mapError Located.here

namespace Codec

mutual

/-- The number of bytes of a value. -/
def measure : Codec → Scope → Value → Except EncodeError Nat
  | .scalar p, _, value => checked (p.scalar.measure p.name value)
  | .text count, scope, value => do
    let bs ← checked (expectText value)
    let n ← checked (countValue bs.length)
    let size ← count.measure scope n
    return size + bs.length
  | .block length, _, value => do
    let bs ← checked (expectBytes (some length) value)
    return bs.length
  | .countedBlock count, scope, value => do
    let bs ← checked (expectBytes none value)
    let n ← checked (countValue bs.length)
    let size ← count.measure scope n
    return size + bs.length
  | .option inner, scope, value =>
    match value with
    | .null => return 1
    | value => do
      let size ← inner.measure scope value
      return 1 + size
  | .array element length, scope, value => do
    let items ← checked (expectItems (some length) value)
    itemsSize element.fixedSize (fun item => element.measure scope item) items
  | .countedArray count element, scope, value => do
    let items ← checked (expectItems none value)
    let n ← checked (countValue items.length)
    let size ← count.measure scope n
    let sizes ← itemsSize element.fixedSize (fun item => element.measure scope item) items
    return size + sizes
  | .container fields, scope, value => do
    let record ← checked (expectRecord value)
    measureFields fields scope record
  | .switch on branches default fixed, scope, value => do
    let key ← checked ((on.key scope).mapError EncodeFault.discriminant)
    let size ←
      match measureBranch branches key scope value with
      | some outcome => outcome
      | none => default.measure scope value
    return fixed.getD size

def measureFields : List (String × Codec) → Scope → Record → Except EncodeError Nat
  | [], _, _ => .ok 0
  | (name, c) :: rest, scope, record => do
    let size ← (c.measure (record :: scope) (fieldValue record name)).mapError (Located.within name)
    let sizes ← measureFields rest scope record
    return size + sizes

def measureBranch : List (String × Codec) → String → Scope → Value →
    Option (Except EncodeError Nat)
  | [], _, _, _ => none
  | (k, c) :: rest, key, scope, value =>
    if k = key then some (c.measure scope value) else measureBranch rest key scope value

end

end Codec

end PacketCodec
