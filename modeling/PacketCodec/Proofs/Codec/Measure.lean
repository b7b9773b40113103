import PacketCodec.Framing.Serializer
import PacketCodec.Proofs.Codec.Scalar
import PacketCodec.Proofs.Compile.Compiled

/-!
# Measuring and encoding

Measuring a value gives the size of its emission: both walk over the value in the same order and stop
at the same fault, and the sizes that a codec keeps are those that its parts have.
-/

namespace PacketCodec

private theorem itemsSize_eq_sumSizes {fixed : Option Nat} {measure : Value → Except EncodeError Nat}
    (h : ∀ each value n, fixed = some each → measure value = .ok n → n = each)
    (values : List Value) : itemsSize fixed measure values = sumSizes measure values := by
  cases fixed with
  | none => rfl
  | some each =>
    simp only [itemsSize]
    induction values with
    | nil => simp [checkItems, sumSizes]
    | cons value rest ih =>
      simp only [checkItems, sumSizes, ← ih]
      cases hm : measure value with
      | error e => rfl
      | ok n =>
        have hn := h each value n rfl hm
        cases checkItems measure rest with
        | error e => rfl
        | ok _ =>
          have hsum : (rest.length + 1) * each = n + rest.length * each := by
            rw [hn, Nat.succ_mul, Nat.add_comm]
          exact congrArg Except.ok hsum

namespace Codec

theorem measure_eq_fixedSize {c : Codec} {scope : Scope} {value : Value} {n m : Nat}
    (hn : c.fixedSize = some n) (h : c.measure scope value = .ok m) : m = n := by
  cases c with
  | scalar p =>
    rw [measure] at h
    exact Scalar.measure_eq_fixedSize hn (Except.mapError_eq_ok.1 h)
  | switch on branches default size =>
    rw [measure_switch] at h
    obtain ⟨key, _, h⟩ := Except.bind_eq_ok.1 h
    obtain ⟨k, _, h⟩ := Except.bind_eq_ok.1 h
    cases h
    change size = some n at hn
    rw [hn, Option.getD_some]
  | _ => cases hn

theorem itemsSize_elements (element : Codec) (scope : Scope) (values : List Value) :
    itemsSize element.fixedSize (fun item => element.measure scope item) values =
      sumSizes (fun item => element.measure scope item) values :=
  itemsSize_eq_sumSizes (fun _ _ _ he hm => measure_eq_fixedSize he hm) values

theorem fixedSize_alternative {branches : List (String × Codec)} {default : Codec} {n : Nat}
    (h : commonSize branches default = some n) (key : String) :
    (alternative branches default key).fixedSize = some n := by
  unfold commonSize at h
  split at h
  · rename_i k hd
    split at h
    · rename_i hall
      cases h
      rw [List.all_eq_true] at hall
      exact alternative_of_forall (P := fun d => d.fixedSize = some n)
        (fun branch hb => eq_of_beq (hall branch hb)) hd key
    · cases h
  · cases h

private theorem size_scalar (p : Primitive) (value : Value) :
    (Emission.ofExcept (p.scalar.encode p.name value) fun bs =>
      ⟨(p.scalar.pieces bs).map fun piece => ⟨[], piece⟩, none⟩).size =
        checked (p.scalar.measure p.name value) := by
  rw [Emission.size_ofExcept, Scalar.measure_eq_encode]
  cases h : p.scalar.encode p.name value with
  | error fault => rfl
  | ok bs => exact (Scalar.writes_pieces h).size

private theorem size_counted {count : Codec} {scope : Scope}
    (ih : ∀ value, count.measure scope value = (count.emit scope value).size) (n : Nat)
    (content : Emission) :
    (Emission.ofExcept (countValue n) (fun v => count.emit scope v) ++ content).size = (do
      let v ← checked (countValue n)
      let k ← count.measure scope v
      let l ← content.size
      return k + l) := by
  simp only [Emission.size_append, Emission.size_ofExcept, bind_assoc, ih]

private theorem measureFields_eq_size {fields : List (String × Codec)}
    (ih : ∀ field ∈ fields, ∀ scope value,
      field.2.measure scope value = (field.2.emit scope value).size)
    (scope : Scope) (record : Record) :
    measureFields fields scope record = (emitFields fields scope record).size := by
  induction fields with
  | nil => rfl
  | cons field rest ihRest =>
    obtain ⟨name, c⟩ := field
    have hc := ih (name, c) List.mem_cons_self (record :: scope) (fieldValue record name)
    have hrest := ihRest fun field hf => ih field (List.mem_cons_of_mem _ hf)
    simp only [measureFields, emitFields, Emission.size_append, Emission.size_within, hc, hrest]

theorem measure_eq_size {c : Codec} (h : c.Everywhere WellBuilt) :
    ∀ scope value, c.measure scope value = (c.emit scope value).size := by
  induction c with
  | scalar p =>
    intro scope value
    rw [measure, emit, size_scalar]
  | text count ih =>
    intro scope value
    have hcount := ih (h.part List.mem_cons_self) scope
    simp only [measure, emit, Emission.size_ofExcept, size_counted hcount, Emission.size_piece]
    rfl
  | block length =>
    intro scope value
    simp only [measure, emit, Emission.size_ofExcept, Emission.size_piece]
    rfl
  | countedBlock count ih =>
    intro scope value
    have hcount := ih (h.part List.mem_cons_self) scope
    simp only [measure, emit, Emission.size_ofExcept, size_counted hcount, Emission.size_piece]
    rfl
  | option inner ih =>
    intro scope value
    have hinner := ih (h.part List.mem_cons_self) scope value
    cases value with
    | null =>
      simp only [measure, emit, Emission.size_piece]
      rfl
    | _ =>
      simp only [measure, emit, Emission.size_append, Emission.size_piece, hinner]
      rfl
  | array element length ih =>
    intro scope value
    have helement := ih (h.part List.mem_cons_self) scope
    simp only [measure, emit, Emission.size_ofExcept, Emission.size_items, itemsSize_elements]
    simp only [helement]
  | countedArray count element ihCount ihElement =>
    intro scope value
    have hcount := ihCount (h.part List.mem_cons_self) scope
    have helement := ihElement (h.part (List.mem_cons_of_mem _ List.mem_cons_self)) scope
    simp only [measure, emit, Emission.size_ofExcept, size_counted hcount, Emission.size_items,
      itemsSize_elements]
    simp only [helement]
  | container fields ih =>
    intro scope value
    have hfields := measureFields_eq_size fun field hf => ih field hf (h.field hf)
    simp only [measure, emit, Emission.size_ofExcept, hfields]
  | switch on branches default size ihBranches ihDefault =>
    intro scope value
    have hsize : size = commonSize branches default := h.self
    rw [measure_switch, emit_switch, Emission.size_ofExcept]
    congr 1
    funext key
    have halt := alternative_of_forall
      (P := fun d => d.Everywhere WellBuilt →
        d.measure scope value = (d.emit scope value).size)
      (fun branch hb hw => ihBranches branch hb hw scope value)
      (fun hw => ihDefault hw scope value) key (h.alternative key)
    rw [← halt]
    -- A size that the switch keeps is answered in place of the one that was measured.
    cases hm : (alternative branches default key).measure scope value with
    | error e => rfl
    | ok n =>
      cases hk : size with
      | none => rfl
      | some k =>
        have hn := measure_eq_fixedSize (fixedSize_alternative (hsize.symm.trans hk) key) hm
        exact congrArg Except.ok hn.symm

private theorem emitFields_stopsByValue {fields : List (String × Codec)}
    (ih : ∀ field ∈ fields, ∀ scope value, (field.2.emit scope value).StopsByValue)
    (scope : Scope) (record : Record) : (emitFields fields scope record).StopsByValue := by
  induction fields with
  | nil => exact Emission.stopsByValue_of_none rfl
  | cons field rest ihRest =>
    obtain ⟨name, c⟩ := field
    have hc := ih (name, c) List.mem_cons_self (record :: scope) (fieldValue record name)
    have hrest := ihRest fun field hf => ih field (List.mem_cons_of_mem _ hf)
    rw [emitFields]
    exact (hc.within name).append hrest

theorem emit_stopsByValue (c : Codec) :
    ∀ scope value, (c.emit scope value).StopsByValue := by
  have counted {count : Codec} {scope : Scope} (n : Nat)
      (ih : ∀ value, (count.emit scope value).StopsByValue) :
      (Emission.ofExcept (countValue n) (fun v => count.emit scope v)).StopsByValue := by
    refine .ofExcept ?_ fun v _ => ih v
    grind [countValue, EncodeFault.OfValue]
  have content (bs : Bytes) : (Emission.piece bs).StopsByValue := Emission.stopsByValue_of_none rfl
  induction c with
  | scalar p =>
    intro scope value
    rw [emit]
    exact .ofExcept (fun _ h => Scalar.ofValue_of_encode h) fun _ _ =>
      Emission.stopsByValue_of_none rfl
  | text count ih =>
    intro scope value
    rw [emit]
    refine .ofExcept ?_ fun bs _ => (counted _ (ih scope)).append (content bs)
    grind [expectText, EncodeFault.OfValue]
  | block length =>
    intro scope value
    rw [emit]
    refine .ofExcept ?_ fun bs _ => content bs
    grind [expectBytes, EncodeFault.OfValue]
  | countedBlock count ih =>
    intro scope value
    rw [emit]
    refine .ofExcept ?_ fun bs _ => (counted _ (ih scope)).append (content bs)
    grind [expectBytes, EncodeFault.OfValue]
  | option inner ih =>
    intro scope value
    cases value with
    | null => exact content [0]
    | _ =>
      rw [emit]
      · exact (content [1]).append (ih scope _)
      · intro h
        cases h
  | array element length ih =>
    intro scope value
    rw [emit]
    refine .ofExcept ?_ fun values _ => .items (ih scope) values
    grind [expectItems, EncodeFault.OfValue]
  | countedArray count element ihCount ihElement =>
    intro scope value
    rw [emit]
    refine .ofExcept ?_ fun values _ =>
      (counted _ (ihCount scope)).append (.items (ihElement scope) values)
    grind [expectItems, EncodeFault.OfValue]
  | container fields ih =>
    intro scope value
    rw [emit]
    refine .ofExcept ?_ fun record _ => emitFields_stopsByValue ih scope record
    grind [expectRecord, EncodeFault.OfValue]
  | switch on branches default size ihBranches ihDefault =>
    intro scope value
    rw [emit_switch]
    refine .ofExcept ?_ fun key _ => ?_
    · intro fault h
      obtain ⟨_, _, rfl⟩ := Except.mapError_eq_error.1 h
      trivial
    · exact alternative_of_forall (P := fun d => (d.emit scope value).StopsByValue)
        (fun branch hb => ihBranches branch hb scope value) (ihDefault scope value) key

theorem ofValue_of_measure {c : Codec} (h : c.Everywhere WellBuilt) {scope : Scope} {value : Value}
    {e : EncodeError} (he : c.measure scope value = .error e) : e.fault.OfValue := by
  rw [measure_eq_size h, Emission.size] at he
  split at he
  · rename_i failure hf
    cases he
    exact emit_stopsByValue c scope value e hf
  · cases he

end Codec

/-- Appending adds the bytes of the emission, unless measuring fails. -/
theorem PacketType.appendTo_ofCodec {c : Codec} (h : c.Everywhere Codec.WellBuilt) (value : Value)
    (out : Bytes) : (PacketType.ofCodec c).appendTo value out =
      (c.measure [] value).map fun _ => out ++ (c.emit [] value).bytes := by
  simp only [appendTo, measure, ofCodec, Codec.encode]
  cases hm : c.measure [] value with
  | error e => rfl
  | ok n =>
    have hsize := (Codec.measure_eq_size h [] value).symm.trans hm
    obtain ⟨_, rfl⟩ := Emission.size_eq_ok hsize
    have hfits : out.length + (c.emit [] value).bytes.length ≤
        (out ++ List.replicate (c.emit [] value).bytes.length 0).length := by simp
    simp only [Emission.place_eq_of_le hfits, hsize, Bytes.overwrite_append_replicate,
      Except.map, pure, bind, Except.bind, Except.pure, if_true]

theorem PacketType.encode_ofCodec {c : Codec} (h : c.Everywhere Codec.WellBuilt) {value : Value}
    {bs : Bytes} (hw : (c.emit [] value).Writes bs) :
    (PacketType.ofCodec c).encode value = .ok bs := by
  have hm : c.measure [] value = .ok bs.length :=
    (Codec.measure_eq_size h [] value).trans hw.size
  rw [encode, appendTo_ofCodec h, hm, hw.2]
  rfl

theorem PacketType.writes_of_encode {c : Codec} (h : c.Everywhere Codec.WellBuilt) {value : Value}
    {bs : Bytes} (he : (PacketType.ofCodec c).encode value = .ok bs) :
    (c.emit [] value).Writes bs := by
  rw [encode, appendTo_ofCodec h] at he
  obtain ⟨n, hn, rfl⟩ := Except.map_eq_ok.1 he
  obtain ⟨hnone, _⟩ := Emission.size_eq_ok ((Codec.measure_eq_size h [] value).symm.trans hn)
  exact ⟨hnone, rfl⟩

/-- Measuring and encoding accept the same values. A value that is measured takes that many bytes wherever
they fit; one that is not is refused with the same error wherever there is room enough. So what a packet type
or a serializer writes never differs from what it has measured. -/
theorem Codec.Compiled.measure_decides_encode {c : Codec} (h : c.Compiled) (scope : Scope)
    (value : Value) :
    (∀ n, c.measure scope value = .ok n → ∀ dest offset, offset + n ≤ dest.length →
      (c.encode scope value dest offset).outcome = .ok (offset + n)) ∧
    (∀ e, c.measure scope value = .error e → ∃ bound, ∀ dest offset,
      offset + bound ≤ dest.length → (c.encode scope value dest offset).outcome = .error e) ∧
    (∀ out e, (PacketType.ofCodec c).appendTo value out = .error e →
      ∀ encoded measured, e.fault ≠ .sizeMismatch encoded measured) ∧
    (∀ e, (PacketType.ofCodec c).encode value = .error e →
      ∀ encoded measured, e.fault ≠ .sizeMismatch encoded measured) ∧
    (∀ out e, ((⟨.ofCodec c⟩ : Serializer).serializeInto value out).2 = .error e →
      ∀ path encoded measured, e.rootCause ≠ .encode ⟨path, .sizeMismatch encoded measured⟩) := by
  have hsize := measure_eq_size h.wellBuilt scope value
  have happend {out : Bytes} {e : EncodeError}
      (he : (PacketType.ofCodec c).appendTo value out = .error e) : e.fault.OfValue := by
    rw [PacketType.appendTo_ofCodec h.wellBuilt] at he
    cases hm : c.measure [] value with
    | error e' =>
      rw [hm] at he
      cases he
      exact ofValue_of_measure h.wellBuilt hm
    | ok n =>
      rw [hm] at he
      cases he
  refine ⟨?_, ?_, ?_, ?_, ?_⟩
  · intro n hn dest offset hfits
    rw [hsize] at hn
    obtain ⟨_, rfl⟩ := Emission.size_eq_ok hn
    rw [encode, Emission.place_eq_of_le hfits, hn]
    rfl
  · intro e he
    rw [hsize] at he
    refine ⟨(c.emit scope value).bytes.length, fun dest offset hfits => ?_⟩
    rw [encode, Emission.place_eq_of_le hfits, he]
    rfl
  · intro out e he encoded measured hf
    have hv := happend he
    rw [hf] at hv
    exact hv
  · intro e he encoded measured hf
    have hv := happend he
    rw [hf] at hv
    exact hv
  · intro out e he path encoded measured hf
    rw [Serializer.serializeInto] at he
    split at he
    · cases he
    · rename_i e' ha
      cases he
      cases hf
      exact happend ha

def Codec.messageTo (names : List Value) : Value :=
  .record [("kind", .uint 1), ("names", .array names), ("body", .int 7)]

theorem Codec.message_measure_decides_encode :
    message.Compiled ∧ message.measure [] (messageTo [.string "ab"]) = .ok 7 ∧
      (message.encode [] (messageTo [.string "ab"]) (List.replicate 9 0) 2).outcome = .ok 9 ∧
      message.measure [] (messageTo [.uint 5]) =
        .error ⟨["names"], .expectedString .integer⟩ ∧
      (∃ bound, ∀ dest offset, offset + bound ≤ dest.length →
        (message.encode [] (messageTo [.uint 5]) dest offset).outcome =
          .error ⟨["names"], .expectedString .integer⟩) := by
  have hone : message.measure [] (messageTo [.string "ab"]) = .ok 7 := by rfl
  have hother : message.measure [] (messageTo [.uint 5]) =
      .error ⟨["names"], .expectedString .integer⟩ := by rfl
  refine ⟨message_compiled, hone, ?_, hother, ?_⟩
  · exact (Compiled.measure_decides_encode message_compiled [] _).1 7 hone _ 2 (by decide)
  · exact (Compiled.measure_decides_encode message_compiled [] _).2.1 _ hother

end PacketCodec
