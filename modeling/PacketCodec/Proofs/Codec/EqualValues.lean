import PacketCodec.Proofs.Codec.Measure
import PacketCodec.Proofs.Value.Normal

/-!
# Encoding equal values

Encoding asks of a value and of the records around it only what their normal forms answer alike. So the
emission of a normal form is that of the value itself, but for a value that its fault quotes, and the wording
is the same. Equal values are measured and encoded alike, whatever the signedness of the integers in them.
-/

namespace PacketCodec

namespace Table

theorem get?_normalFields (fields : Record) (name : String) :
    get? (Value.normalFields fields) name = (get? fields name).map Value.normal := by
  induction fields with
  | nil => rfl
  | cons field rest ih =>
    obtain ⟨key, value⟩ := field
    rw [Value.normalFields, get?_cons, get?_cons, ih]
    split <;> rfl

end Table

theorem fieldValue_normalFields (record : Record) (name : String) :
    fieldValue (Value.normalFields record) name = (fieldValue record name).normal := by
  rw [fieldValue, fieldValue, Table.get?_normalFields]
  cases Table.get? record name <;> rfl

namespace Scope

/-- The scope with the values in its records in normal form. -/
def normal (scope : Scope) : Scope :=
  scope.map Value.normalFields

theorem descend_normal (value : Value) (names : List String) :
    descend value.normal names = (descend value names).map Value.normal := by
  induction names generalizing value with
  | nil => rfl
  | cons name rest ih =>
    simp only [descend, Value.asRecord?_normal]
    cases value.asRecord? with
    | none => rfl
    | some fields =>
      change (Table.get? (Value.normalFields fields) name >>= fun field => descend field rest) =
        (Table.get? fields name >>= fun field => descend field rest).map Value.normal
      rw [Table.get?_normalFields]
      cases Table.get? fields name with
      | none => rfl
      | some field => exact ih field

theorem resolve_normal (scope : Scope) (segments : List String) :
    resolve scope.normal segments = (resolve scope segments).map Value.normal := by
  induction segments generalizing scope with
  | nil => cases scope <;> rfl
  | cons name rest ih =>
    cases scope with
    | nil => rfl
    | cons frame outer =>
      change resolve (Value.normalFields frame :: normal outer) (name :: rest) = _
      simp only [resolve]
      split
      · exact ih outer
      · rw [Table.get?_normalFields]
        cases Table.get? frame name with
        | none => rfl
        | some field => exact descend_normal field rest

end Scope

theorem Discriminant.key_normal (on : Discriminant) (scope : Scope) :
    on.key scope.normal = on.key scope := by
  cases on with
  | constant v => rfl
  | field path =>
    simp only [key, value, Scope.lookup, Scope.resolve_normal]
    cases Scope.resolve scope (Path.segments path) with
    | none => rfl
    | some v =>
      simp only [Option.map_some, bind, Except.bind, Value.branchKey?_normal, Value.kind_normal]

/-- The fault with the value that it quotes in normal form. -/
def EncodeFault.normal : EncodeFault → EncodeFault
  | .expectedNatural type value => .expectedNatural type value.normal
  | .expectedInteger type value => .expectedInteger type value.normal
  | .expectedNumber type value => .expectedNumber type value.normal
  | .expectedBool value => .expectedBool value.normal
  | fault => fault

theorem EncodeFault.message_normal (fault : EncodeFault) : fault.normal.message = fault.message := by
  have quoting (text : String) (value : Value) :
      text ++ value.normal.kind.name ++ " " ++ value.normal.render =
        text ++ value.kind.name ++ " " ++ value.render := by
    rw [Value.kind_normal, Value.render_normal]
  cases fault with
  | expectedNatural type value => exact quoting _ value
  | expectedInteger type value => exact quoting _ value
  | expectedNumber type value => exact quoting _ value
  | expectedBool value => exact quoting _ value
  | _ => rfl

namespace EncodeError

def normal (e : EncodeError) : EncodeError :=
  ⟨e.path, e.fault.normal⟩

/-- The message of the error that an encoding reports. -/
def wording (e : EncodeError) : String :=
  (Error.encode e).message

theorem wording_normal (e : EncodeError) : e.normal.wording = e.wording :=
  congrArg (fun message => "Encode error: " ++ fieldMessage e.path message) e.fault.message_normal

theorem mapError_wording {α : Type} {x y : Except EncodeError α}
    (h : x.mapError normal = y.mapError normal) : x.mapError wording = y.mapError wording := by
  cases x with
  | ok a =>
    cases y with
    | ok b => exact congrArg Except.ok (Except.ok.inj h)
    | error e => cases h
  | error e =>
    cases y with
    | ok b => cases h
    | error e' =>
      have hsame := Except.error.inj h
      change Except.error e.wording = Except.error e'.wording
      rw [← wording_normal e, hsame, wording_normal]

end EncodeError

section Checks

variable (value : Value)

theorem expectItems_normal (declared : Option Nat) : expectItems declared value.normal =
    ((expectItems declared value).mapError EncodeFault.normal).map Value.normalItems := by
  rw [expectItems, expectItems, Value.asArray?_normal, Value.kind_normal]
  cases value.asArray? with
  | none => rfl
  | some items =>
    cases declared with
    | none => rfl
    | some n =>
      simp only [Option.map_some, Value.length_normalItems]
      split <;> rfl

theorem expectBytes_normal (declared : Option Nat) : expectBytes declared value.normal =
    (expectBytes declared value).mapError EncodeFault.normal := by
  rw [expectBytes, expectBytes, Value.asBytes?_normal, Value.kind_normal]
  cases value.asBytes? with
  | none => rfl
  | some bs =>
    cases declared with
    | none => rfl
    | some n =>
      dsimp only
      split <;> rfl

theorem expectText_normal :
    expectText value.normal = (expectText value).mapError EncodeFault.normal := by
  rw [expectText, expectText, Value.asString?_normal, Value.kind_normal]
  cases value.asString? <;> rfl

theorem expectRecord_normal : expectRecord value.normal =
    ((expectRecord value).mapError EncodeFault.normal).map Value.normalFields := by
  rw [expectRecord, expectRecord, Value.asRecord?_normal, Value.kind_normal]
  cases value.asRecord? <;> rfl

end Checks

namespace Scalar

variable (type : String) (value : Value)

theorem expectNat_normal (bound : Nat) : expectNat type bound value.normal =
    (expectNat type bound value).mapError EncodeFault.normal := by
  rw [expectNat, expectNat, Value.asNat?_normal]
  cases value.asNat? with
  | none => rfl
  | some n =>
    dsimp only
    split <;> rfl

theorem expectInt_normal (low high : Int) : expectInt type low high value.normal =
    (expectInt type low high value).mapError EncodeFault.normal := by
  rw [expectInt, expectInt, Value.asInt?_normal]
  cases value.asInt? with
  | none => rfl
  | some i =>
    dsimp only
    split <;> rfl

theorem expectDouble_normal : expectDouble type value.normal =
    (expectDouble type value).mapError EncodeFault.normal := by
  rw [expectDouble, expectDouble, Value.asDouble?_normal]
  cases value.asDouble? <;> rfl

theorem expectBool_normal :
    expectBool value.normal = (expectBool value).mapError EncodeFault.normal := by
  rw [expectBool, expectBool, Value.asBool?_normal]
  cases value.asBool? <;> rfl

theorem expectVarint_normal : expectVarint type value.normal =
    (expectVarint type value).mapError EncodeFault.normal := by
  rw [expectVarint, expectVarint, Value.asInt?_normal]
  cases value.asInt? with
  | none => rfl
  | some i =>
    dsimp only
    cases Varint.bits? i <;> rfl

theorem encode_normal (s : Scalar) :
    s.encode type value.normal = (s.encode type value).mapError EncodeFault.normal := by
  cases s with
  | unsigned order width =>
    rw [encode, encode, expectNat_normal, Except.mapError_bind]
    rfl
  | signed order width =>
    rw [encode, encode, expectInt_normal, Except.mapError_bind]
    rfl
  | single order =>
    rw [encode, encode, expectDouble_normal, Except.mapError_bind]
    rfl
  | double order =>
    rw [encode, encode, expectDouble_normal, Except.mapError_bind]
    rfl
  | bool =>
    rw [encode, encode, expectBool_normal, Except.mapError_bind]
    rfl
  | varint =>
    rw [encode, encode, expectVarint_normal, Except.mapError_bind]
    rfl
  | void => rfl

end Scalar

namespace Emission

/-- The emission with the value that its error quotes in normal form. -/
def normal (e : Emission) : Emission :=
  ⟨e.pieces, e.failure.map EncodeError.normal⟩

theorem normal_append (a b : Emission) : (a ++ b).normal = a.normal ++ b.normal := by
  obtain ⟨ps, failure⟩ := a
  cases failure <;> rfl

theorem normal_within (name : String) (e : Emission) :
    (e.within name).normal = e.normal.within name := by
  obtain ⟨ps, failure⟩ := e
  cases failure <;> rfl

theorem normal_ofExcept {α : Type} (outcome : Except EncodeFault α) (emit : α → Emission) :
    (ofExcept outcome emit).normal =
      ofExcept (outcome.mapError EncodeFault.normal) fun a => (emit a).normal := by
  cases outcome <;> rfl

theorem ofExcept_map {α β : Type} (outcome : Except EncodeFault α) (f : α → β)
    (emit : β → Emission) : ofExcept (outcome.map f) emit = ofExcept outcome fun a => emit (f a) := by
  cases outcome <;> rfl

theorem items_normalItems {emit emit' : Value → Emission}
    (h : ∀ value, emit' value.normal = (emit value).normal) (values : List Value) :
    items emit' (Value.normalItems values) = (items emit values).normal := by
  induction values with
  | nil => rfl
  | cons value rest ih => rw [Value.normalItems, items, items, normal_append, h, ih]

theorem size_normal (e : Emission) : e.normal.size = e.size.mapError EncodeError.normal := by
  obtain ⟨ps, failure⟩ := e
  cases failure <;> rfl

theorem place_normal (e : Emission) (dest : Bytes) (offset : Nat) :
    e.normal.place dest offset = ⟨(e.place dest offset).dest,
      (e.place dest offset).outcome.mapError EncodeError.normal⟩ := by
  obtain ⟨ps, failure⟩ := e
  rw [normal, place, place, placePieces]
  cases fitting dest.length ps offset with
  | mk bs rejected => cases rejected <;> cases failure <;> rfl

end Emission

namespace Codec

private theorem counted_normal {count : Codec} {scope : Scope}
    (ih : ∀ value, count.emit scope.normal value.normal = (count.emit scope value).normal) (n : Nat) :
    Emission.ofExcept (countValue n) (fun v => count.emit scope.normal v) =
      (Emission.ofExcept (countValue n) (fun v => count.emit scope v)).normal := by
  rw [countValue, Value.ofNat?]
  by_cases hn : n < UInt64.size
  · have hcount := ih (.uint (UInt64.ofNat n))
    rw [Value.normal_uint] at hcount
    rw [if_pos hn]
    exact hcount
  · rw [if_neg hn]
    rfl

private theorem emitFields_normal {fields : List (String × Codec)}
    (ih : ∀ field ∈ fields, ∀ scope : Scope, ∀ value,
      field.2.emit scope.normal value.normal = (field.2.emit scope value).normal)
    (scope : Scope) (record : Record) :
    emitFields fields scope.normal (Value.normalFields record) =
      (emitFields fields scope record).normal := by
  induction fields with
  | nil => rfl
  | cons field rest ihRest =>
    obtain ⟨name, c⟩ := field
    have hc := ih (name, c) List.mem_cons_self (record :: scope) (fieldValue record name)
    have hrest := ihRest fun field hf => ih field (List.mem_cons_of_mem _ hf)
    rw [← fieldValue_normalFields] at hc
    rw [emitFields, emitFields, Emission.normal_append, Emission.normal_within, ← hc, ← hrest]
    rfl

/-- A codec emits the normal form of a value as it emits the value, up to the value that a fault quotes. -/
theorem emit_normal (c : Codec) : ∀ (scope : Scope) (value : Value),
    c.emit scope.normal value.normal = (c.emit scope value).normal := by
  induction c with
  | scalar p =>
    intro scope value
    rw [emit, emit, Scalar.encode_normal, Emission.normal_ofExcept]
    rfl
  | text count ih =>
    intro scope value
    simp only [emit, expectText_normal, counted_normal (ih scope), Emission.normal_ofExcept,
      Emission.normal_append]
    rfl
  | block length =>
    intro scope value
    rw [emit, emit, expectBytes_normal, Emission.normal_ofExcept]
    rfl
  | countedBlock count ih =>
    intro scope value
    simp only [emit, expectBytes_normal, counted_normal (ih scope), Emission.normal_ofExcept,
      Emission.normal_append]
    rfl
  | option inner ih =>
    intro scope value
    by_cases hnull : value = .null
    · subst hnull
      rfl
    · rw [emit_present hnull, emit_present (mt Value.normal_eq_null.1 hnull), ih,
        Emission.normal_append]
      rfl
  | array element length ih =>
    intro scope value
    rw [emit, emit, expectItems_normal, Emission.ofExcept_map, Emission.normal_ofExcept]
    congr 1
    funext items
    exact Emission.items_normalItems (ih scope) items
  | countedArray count element ihCount ihElement =>
    intro scope value
    rw [emit, emit, expectItems_normal, Emission.ofExcept_map, Emission.normal_ofExcept]
    congr 1
    funext items
    rw [Emission.normal_append, Value.length_normalItems, counted_normal (ihCount scope),
      Emission.items_normalItems (ihElement scope)]
  | container fields ih =>
    intro scope value
    rw [emit, emit, expectRecord_normal, Emission.ofExcept_map, Emission.normal_ofExcept]
    congr 1
    funext record
    exact emitFields_normal ih scope record
  | switch on branches default size ihBranches ihDefault =>
    intro scope value
    rw [emit_switch, emit_switch, on.key_normal, Emission.normal_ofExcept]
    have hkey : ((on.key scope).mapError EncodeFault.discriminant).mapError EncodeFault.normal =
        (on.key scope).mapError EncodeFault.discriminant := by
      cases on.key scope <;> rfl
    rw [hkey]
    congr 1
    funext key
    exact alternative_of_forall
      (P := fun d => d.emit scope.normal value.normal = (d.emit scope value).normal)
      (fun branch hb => ihBranches branch hb scope value) (ihDefault scope value) key

/-- Among values without floats equality is an equivalence. Equal ones have the same size under a codec and are
written as the same bytes into any destination, or are refused with the same message. -/
theorem Compiled.respects_equality {c : Codec} (h : c.Compiled) :
    Equivalence (fun v w : {v : Value // v.hasFloat = false} => (v.1 == w.1) = true) ∧
    ∀ v w : Value, v.hasFloat = false → w.hasFloat = false → (v == w) = true → ∀ scope : Scope,
      (c.measure scope v).mapError EncodeError.wording =
        (c.measure scope w).mapError EncodeError.wording ∧
      ∀ dest offset,
        (c.encode scope v dest offset).dest = (c.encode scope w dest offset).dest ∧
        (c.encode scope v dest offset).outcome.mapError EncodeError.wording =
          (c.encode scope w dest offset).outcome.mapError EncodeError.wording := by
  have hnormal (v w : {v : Value // v.hasFloat = false}) :
      (v.1 == w.1) = true ↔ v.1.normal = w.1.normal := v.1.beq_iff_normal_eq w.1 v.2 w.2
  refine ⟨⟨?_, ?_, ?_⟩, ?_⟩
  · exact fun v => (hnormal v v).2 rfl
  · exact fun {v w} hvw => (hnormal w v).2 ((hnormal v w).1 hvw).symm
  · exact fun {v w u} hvw hwu => (hnormal v u).2 (((hnormal v w).1 hvw).trans ((hnormal w u).1 hwu))
  · intro v w hv hw heq scope
    have hsame : (c.emit scope v).normal = (c.emit scope w).normal := by
      rw [← emit_normal, ← emit_normal, (v.beq_iff_normal_eq w hv hw).1 heq]
    refine ⟨?_, fun dest offset => ?_⟩
    · rw [measure_eq_size h.wellBuilt, measure_eq_size h.wellBuilt]
      apply EncodeError.mapError_wording
      rw [← Emission.size_normal, ← Emission.size_normal, hsame]
    · have hplace := congrArg (Emission.place · dest offset) hsame
      simp only [Emission.place_normal, Placement.mk.injEq] at hplace
      exact ⟨hplace.1, EncodeError.mapError_wording hplace.2⟩

def messageOf (kind body : Value) : Value :=
  .record [("kind", kind), ("names", .array []), ("body", body)]

theorem message_respects_equality :
    message.Compiled ∧
      (messageOf (.int 1) (.uint 7) == messageOf (.uint 1) (.int 7)) = true ∧
      (message.encode [] (messageOf (.int 1) (.uint 7)) [0, 0, 0, 0] 0).dest = [1, 0, 0, 7] ∧
      (message.encode [] (messageOf (.uint 1) (.int 7)) [0, 0, 0, 0] 0).dest = [1, 0, 0, 7] ∧
      (message.measure [] (messageOf (.uint 1) (.array [.uint 5]))).mapError EncodeError.wording =
        .error "Encode error: body: expected a non-negative integer for u16, got array [5]" ∧
      (message.measure [] (messageOf (.int 1) (.array [.int 5]))).mapError EncodeError.wording =
        .error "Encode error: body: expected a non-negative integer for u16, got array [5]" := by
  have hwritten : (message.encode [] (messageOf (.uint 1) (.int 7)) [0, 0, 0, 0] 0).dest =
      [1, 0, 0, 7] := by rfl
  have hrefused : (message.measure [] (messageOf (.uint 1) (.array [.uint 5]))).mapError
      EncodeError.wording =
        .error "Encode error: body: expected a non-negative integer for u16, got array [5]" := by rfl
  have hsame := (Compiled.respects_equality message_compiled).2 (messageOf (.int 1) (.uint 7))
    (messageOf (.uint 1) (.int 7)) rfl rfl rfl []
  have hsame' := (Compiled.respects_equality message_compiled).2
    (messageOf (.int 1) (.array [.int 5])) (messageOf (.uint 1) (.array [.uint 5])) rfl rfl rfl []
  exact ⟨message_compiled, rfl, (hsame.2 _ 0).1.trans hwritten, hwritten, hrefused,
    hsame'.1.trans hrefused⟩

end Codec

end PacketCodec
