import PacketCodec.Proofs.Codec.Measure
import PacketCodec.Proofs.Scope

/-!
# Switches resolved once

Several fields of a container may be switches on one discriminant. A discriminant that has been found
stays what it is while the record grows, so the fields together act as if it was resolved once, in front
of the first of them, and each was then what its switch comes to under that key.
-/

namespace PacketCodec

/-- A container in which a discriminant decides on several fields at once: the fields in front of it, the
discriminant, the names of the fields that it decides on and what they are under a key, and the fields
behind them. -/
structure ResolvedOnce where
  front : List (String × Codec)
  on : Discriminant
  names : List String
  chosen : String → List (String × Codec)
  back : List (String × Codec)

namespace ResolvedOnce

/-- The fields from the first name on. A discriminant that has no key is the fault of that field; where
there are no names, none is asked for. -/
def following (r : ResolvedOnce) (scope : Scope) :
    Except (Located DiscriminantFault) (List (String × Codec)) :=
  match r.names with
  | [] => .ok r.back
  | name :: _ =>
    match r.on.key scope with
    | .ok key => .ok (r.chosen key ++ r.back)
    | .error fault => .error ⟨[name], fault⟩

def decode (r : ResolvedOnce) (buf : Bytes) (scope : Scope) (offset : Nat) :
    Except ReadError Decoded := do
  let (record, size) ← Codec.decodeFields r.front buf scope offset []
  match r.following (record :: scope) with
  | .ok fields =>
    let (record, size') ← Codec.decodeFields fields buf scope (offset + size) record
    return ⟨.record record, size + size'⟩
  | .error e => throw (.invalid ⟨e.path, .discriminant e.fault⟩)

def emit (r : ResolvedOnce) (scope : Scope) (value : Value) : Emission :=
  .ofExcept (expectRecord value) fun record =>
    Codec.emitFields r.front scope record ++
      match r.following (record :: scope) with
      | .ok fields => Codec.emitFields fields scope record
      | .error e => ⟨[], some ⟨e.path, .discriminant e.fault⟩⟩

def encode (r : ResolvedOnce) (scope : Scope) (value : Value) (dest : Bytes) (offset : Nat) :
    Placement :=
  (r.emit scope value).place dest offset

def measure (r : ResolvedOnce) (scope : Scope) (value : Value) : Except EncodeError Nat := do
  let record ← checked (expectRecord value)
  let size ← Codec.measureFields r.front scope record
  match r.following (record :: scope) with
  | .ok fields =>
    let size' ← Codec.measureFields fields scope record
    return size + size'
  | .error e => throw ⟨e.path, .discriminant e.fault⟩

end ResolvedOnce

namespace Codec

/-- A codec is a switch on a discriminant. -/
def SwitchesOn (on : Discriminant) : Codec → Prop
  | .switch on' _ _ _ => on' = on
  | _ => False

/-- What a codec comes to under a key. -/
def under (key : String) : Codec → Codec
  | .switch _ branches default _ => alternative branches default key
  | c => c

def fieldsUnder (key : String) (fields : List (String × Codec)) : List (String × Codec) :=
  fields.map fun field => (field.1, field.2.under key)

section Switch

variable {on : Discriminant} {c : Codec} {scope : Scope} {key : String} {fault : DiscriminantFault}

theorem SwitchesOn.decode_eq (hc : c.SwitchesOn on) (hk : on.key scope = .ok key) (buf : Bytes)
    (offset : Nat) : c.decode buf scope offset = (c.under key).decode buf scope offset := by
  cases c with
  | switch on' branches default size =>
    cases hc
    rw [decode_switch, hk]
    rfl
  | _ => cases hc

theorem SwitchesOn.decode_fault (hc : c.SwitchesOn on) (hk : on.key scope = .error fault)
    (buf : Bytes) (offset : Nat) :
    c.decode buf scope offset = .error (.ofFault (.discriminant fault)) := by
  cases c with
  | switch on' branches default size =>
    cases hc
    rw [decode_switch, hk]
  | _ => cases hc

theorem SwitchesOn.emit_eq (hc : c.SwitchesOn on) (hk : on.key scope = .ok key) (value : Value) :
    c.emit scope value = (c.under key).emit scope value := by
  cases c with
  | switch on' branches default size =>
    cases hc
    rw [emit_switch, hk]
    rfl
  | _ => cases hc

theorem SwitchesOn.emit_fault (hc : c.SwitchesOn on) (hk : on.key scope = .error fault)
    (value : Value) : c.emit scope value = .fail (.discriminant fault) := by
  cases c with
  | switch on' branches default size =>
    cases hc
    rw [emit_switch, hk]
    rfl
  | _ => cases hc

theorem under_everywhere {P : Codec → Prop} (h : c.Everywhere P) (key : String) :
    (c.under key).Everywhere P := by
  cases c with
  | switch on branches default size => exact h.alternative key
  | _ => exact h

end Switch

section Append

variable (a b : List (String × Codec))

theorem decodeFields_append (buf : Bytes) (scope : Scope) (offset : Nat) (record : Record) :
    decodeFields (a ++ b) buf scope offset record = (do
      let (record, size) ← decodeFields a buf scope offset record
      let (record, size') ← decodeFields b buf scope (offset + size) record
      return (record, size + size')) := by
  induction a generalizing offset record with
  | nil =>
    simp only [List.nil_append, decodeFields, bind, Except.bind, Nat.add_zero, Nat.zero_add]
    cases decodeFields b buf scope offset record <;> rfl
  | cons field rest ih =>
    obtain ⟨name, c⟩ := field
    simp only [List.cons_append, decodeFields, ih, bind_assoc, pure_bind, Nat.add_assoc]

theorem decodeFields_append_eq_ok {a b : List (String × Codec)} {buf : Bytes} {scope : Scope} {offset size : Nat}
    {before record : Record} :
    decodeFields (a ++ b) buf scope offset before = .ok (record, size) ↔
      ∃ between n m, decodeFields a buf scope offset before = .ok (between, n) ∧
        decodeFields b buf scope (offset + n) between = .ok (record, m) ∧ size = n + m := by
  simp only [decodeFields_append, Except.bind_eq_ok]
  constructor
  · rintro ⟨⟨between, n⟩, ha, ⟨record', m⟩, hb, h⟩
    cases h
    exact ⟨between, n, m, ha, hb, rfl⟩
  · rintro ⟨between, n, m, ha, hb, rfl⟩
    exact ⟨(between, n), ha, (record, m), hb, rfl⟩

theorem emitFields_append (scope : Scope) (record : Record) :
    emitFields (a ++ b) scope record = emitFields a scope record ++ emitFields b scope record := by
  induction a with
  | nil => rfl
  | cons field rest ih =>
    obtain ⟨name, c⟩ := field
    simp only [List.cons_append, emitFields, ih, Emission.append_assoc]

theorem measureFields_append (scope : Scope) (record : Record) :
    measureFields (a ++ b) scope record = (do
      let size ← measureFields a scope record
      let size' ← measureFields b scope record
      return size + size') := by
  induction a with
  | nil =>
    simp only [List.nil_append, measureFields, bind, Except.bind, Nat.zero_add]
    cases measureFields b scope record <;> rfl
  | cons field rest ih =>
    obtain ⟨name, c⟩ := field
    simp only [List.cons_append, measureFields, ih, bind_assoc, pure_bind, Nat.add_assoc]

end Append

section Group

variable {on : Discriminant} {group : List (String × Codec)} {scope : Scope} {record : Record}
  {key : String}

theorem decodeFields_under (h : ∀ field ∈ group, field.2.SwitchesOn on)
    (hk : on.key (record :: scope) = .ok key) (buf : Bytes) (offset : Nat) :
    decodeFields group buf scope offset record =
      decodeFields (fieldsUnder key group) buf scope offset record := by
  induction group generalizing offset record with
  | nil => rfl
  | cons field rest ih =>
    obtain ⟨name, c⟩ := field
    have hc : c.SwitchesOn on := h (name, c) List.mem_cons_self
    have hgrown (item : Decoded) :
        on.key (Table.push record name item.value :: scope) = .ok key :=
      Discriminant.key_of_grows (.cons (List.prefix_append record _) (Scope.Grows.refl scope)) hk
    have hrest (item : Decoded) (place : Nat) :=
      ih (fun f hf => h f (List.mem_cons_of_mem _ hf)) (hgrown item) place
    simp only [fieldsUnder, List.map_cons, decodeFields, hc.decode_eq hk, hrest]

theorem emitFields_under (h : ∀ field ∈ group, field.2.SwitchesOn on)
    (hk : on.key (record :: scope) = .ok key) :
    emitFields group scope record = emitFields (fieldsUnder key group) scope record := by
  induction group with
  | nil => rfl
  | cons field rest ih =>
    obtain ⟨name, c⟩ := field
    have hc : c.SwitchesOn on := h (name, c) List.mem_cons_self
    have hrest := ih fun f hf => h f (List.mem_cons_of_mem _ hf)
    simp only [fieldsUnder, List.map_cons, emitFields, hc.emit_eq hk, hrest]

theorem measureFields_under (hw : ∀ field ∈ group, field.2.Everywhere WellBuilt)
    (h : ∀ field ∈ group, field.2.SwitchesOn on) (hk : on.key (record :: scope) = .ok key) :
    measureFields group scope record = measureFields (fieldsUnder key group) scope record := by
  induction group with
  | nil => rfl
  | cons field rest ih =>
    obtain ⟨name, c⟩ := field
    have hc : c.SwitchesOn on := h (name, c) List.mem_cons_self
    have hbuilt : c.Everywhere WellBuilt := hw (name, c) List.mem_cons_self
    have hrest := ih (fun f hf => hw f (List.mem_cons_of_mem _ hf))
      fun f hf => h f (List.mem_cons_of_mem _ hf)
    -- A switch may answer with the size that it keeps; it is the size of what it emits all the same.
    have hsize : c.measure (record :: scope) (fieldValue record name) =
        (c.under key).measure (record :: scope) (fieldValue record name) := by
      rw [measure_eq_size hbuilt, measure_eq_size (under_everywhere hbuilt key), hc.emit_eq hk]
    simp only [fieldsUnder, List.map_cons, measureFields, hsize, hrest]

end Group

end Codec

namespace ResolvedOnce

open Codec

/-- The container in which a group of fields has its discriminant resolved once. -/
def ofGroup (on : Discriminant) (front group back : List (String × Codec)) : ResolvedOnce where
  front := front
  on := on
  names := Table.names group
  chosen key := fieldsUnder key group
  back := back

variable {on : Discriminant} {front group back : List (String × Codec)}

theorem decode_ofGroup (h : ∀ field ∈ group, field.2.SwitchesOn on) (buf : Bytes) (scope : Scope)
    (offset : Nat) : (Codec.container (front ++ (group ++ back))).decode buf scope offset =
      (ofGroup on front group back).decode buf scope offset := by
  rw [Codec.decode, decodeFields_append, decode]
  simp only [bind_assoc, pure_bind, ofGroup]
  congr 1
  funext result
  obtain ⟨record, size⟩ := result
  cases group with
  | nil => rfl
  | cons field rest =>
    obtain ⟨name, c⟩ := field
    have hc : c.SwitchesOn on := h (name, c) List.mem_cons_self
    simp only [following, Table.names, List.map_cons]
    cases hk : on.key (record :: scope) with
    | error fault =>
      rw [List.cons_append, decodeFields, hc.decode_fault hk]
      rfl
    | ok key =>
      simp only
      rw [decodeFields_append, decodeFields_under h hk, ← decodeFields_append]

theorem emit_ofGroup (h : ∀ field ∈ group, field.2.SwitchesOn on) (scope : Scope) (value : Value) :
    (Codec.container (front ++ (group ++ back))).emit scope value =
      (ofGroup on front group back).emit scope value := by
  rw [Codec.emit, emit]
  congr 1
  funext record
  rw [emitFields_append]
  congr 1
  cases group with
  | nil => rfl
  | cons field rest =>
    obtain ⟨name, c⟩ := field
    have hc : c.SwitchesOn on := h (name, c) List.mem_cons_self
    simp only [following, ofGroup, Table.names, List.map_cons]
    cases hk : on.key (record :: scope) with
    | error fault =>
      rw [List.cons_append, emitFields, hc.emit_fault hk]
      rfl
    | ok key =>
      simp only
      rw [emitFields_append, emitFields_under h hk, ← emitFields_append]

theorem measure_ofGroup (hw : ∀ field ∈ group, field.2.Everywhere WellBuilt)
    (h : ∀ field ∈ group, field.2.SwitchesOn on) (scope : Scope) (value : Value) :
    (Codec.container (front ++ (group ++ back))).measure scope value =
      (ofGroup on front group back).measure scope value := by
  rw [Codec.measure, measure]
  congr 1
  funext record
  rw [measureFields_append]
  congr 1
  funext size
  cases group with
  | nil => rfl
  | cons field rest =>
    obtain ⟨name, c⟩ := field
    have hc : c.SwitchesOn on := h (name, c) List.mem_cons_self
    have hbuilt : c.Everywhere WellBuilt := hw (name, c) List.mem_cons_self
    simp only [following, ofGroup, Table.names, List.map_cons]
    cases hk : on.key (record :: scope) with
    | error fault =>
      rw [List.cons_append, measureFields, measure_eq_size hbuilt, hc.emit_fault hk]
      rfl
    | ok key =>
      simp only
      rw [measureFields_append, measureFields_under hw h hk, ← measureFields_append]

end ResolvedOnce

end PacketCodec
