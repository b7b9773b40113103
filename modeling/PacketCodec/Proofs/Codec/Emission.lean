import PacketCodec.Codec.Measure

/-!
# Sizes and placements of emissions

The size of an emission follows how the emission is put together. Where all of its bytes fit, placing
it writes them and nothing else, and comes out as its size says.
-/

namespace PacketCodec

namespace Emission

/-- The number of bytes that an emission writes, or the error at which it stops. -/
def size (e : Emission) : Except EncodeError Nat :=
  match e.failure with
  | some failure => .error failure
  | none => .ok e.bytes.length

@[simp]
theorem size_piece (bs : Bytes) : (piece bs).size = .ok bs.length := by
  simp [size, piece, bytes]

theorem append_assoc (a b e : Emission) : a ++ b ++ e = a ++ (b ++ e) := by
  obtain ⟨ps, failure⟩ := a
  obtain ⟨qs, failure'⟩ := b
  cases failure with
  | some _ => rfl
  | none =>
    cases failure' with
    | some _ => rfl
    | none => exact congrArg (fun rs => Emission.mk rs e.failure) (List.append_assoc ps qs e.pieces)

theorem size_append (a b : Emission) : (a ++ b).size = do
    let m ← a.size
    let n ← b.size
    return m + n := by
  obtain ⟨ps, failure⟩ := a
  obtain ⟨qs, failure'⟩ := b
  cases failure with
  | some e => rfl
  | none =>
    cases failure' with
    | some e => rfl
    | none =>
      change Except.ok ((ps ++ qs).flatMap Piece.bytes).length = Except.ok _
      rw [List.flatMap_append, List.length_append]
      rfl

theorem size_within (name : String) (e : Emission) :
    (e.within name).size = e.size.mapError (Located.within name) := by
  obtain ⟨ps, failure⟩ := e
  cases failure with
  | some e => rfl
  | none =>
    have hbytes : (ps.map fun p => (⟨name :: p.path, p.bytes⟩ : Piece)).flatMap Piece.bytes =
        ps.flatMap Piece.bytes := by
      rw [List.flatMap_map]
    exact congrArg (fun bs => Except.ok (List.length bs)) hbytes

theorem size_ofExcept {α : Type} (outcome : Except EncodeFault α) (emit : α → Emission) :
    (ofExcept outcome emit).size = checked outcome >>= fun a => (emit a).size := by
  cases outcome <;> rfl

theorem size_items (emit : Value → Emission) (values : List Value) :
    (items emit values).size = sumSizes (fun value => (emit value).size) values := by
  induction values with
  | nil => rfl
  | cons value rest ih =>
    rw [items, size_append, ih]
    rfl

theorem size_eq_ok {e : Emission} {n : Nat} (h : e.size = .ok n) :
    e.failure = none ∧ e.bytes.length = n := by
  obtain ⟨ps, failure⟩ := e
  cases failure with
  | some failure => cases h
  | none => exact ⟨rfl, Except.ok.inj h⟩

/-- An emission writes some bytes and does not stop early. -/
def Writes (e : Emission) (bs : Bytes) : Prop :=
  e.failure = none ∧ e.bytes = bs

section Writes

variable {a b e : Emission} {bs cs : Bytes}

theorem Writes.size (h : e.Writes bs) : e.size = .ok bs.length := by
  rw [Emission.size, h.1, h.2]

theorem writes_empty : empty.Writes [] := ⟨rfl, rfl⟩

theorem writes_piece (bs : Bytes) : (piece bs).Writes bs :=
  ⟨rfl, List.append_nil bs⟩

theorem Writes.append (ha : a.Writes bs) (hb : b.Writes cs) : (a ++ b).Writes (bs ++ cs) := by
  obtain ⟨ps, failure⟩ := a
  obtain ⟨rfl, rfl⟩ := ha
  obtain ⟨hnone, rfl⟩ := hb
  exact ⟨hnone, List.flatMap_append⟩

theorem Writes.within (h : e.Writes bs) (name : String) : (e.within name).Writes bs := by
  obtain ⟨ps, failure⟩ := e
  obtain ⟨rfl, rfl⟩ := h
  exact ⟨rfl, List.flatMap_map ..⟩

theorem Writes.ofExcept {α : Type} {outcome : Except EncodeFault α} {emit : α → Emission} {x : α}
    (hx : outcome = .ok x) (h : (emit x).Writes bs) : (ofExcept outcome emit).Writes bs := by
  rw [hx]
  exact h

theorem Writes.of_append (h : (a ++ b).Writes bs) :
    ∃ cs ds, a.Writes cs ∧ b.Writes ds ∧ bs = cs ++ ds := by
  obtain ⟨ps, failure⟩ := a
  obtain ⟨hnone, rfl⟩ := h
  cases failure with
  | some e => cases hnone
  | none => exact ⟨_, b.bytes, ⟨rfl, rfl⟩, ⟨hnone, rfl⟩, List.flatMap_append⟩

theorem Writes.of_within {name : String} (h : (e.within name).Writes bs) : e.Writes bs := by
  have hnone : e.failure = none := Option.map_eq_none_iff.1 h.1
  have hsame : (e.within name).Writes e.bytes := Writes.within ⟨hnone, rfl⟩ name
  exact ⟨hnone, hsame.2.symm.trans h.2⟩

theorem Writes.of_ofExcept {α : Type} {outcome : Except EncodeFault α} {emit : α → Emission}
    (h : (Emission.ofExcept outcome emit).Writes bs) :
    ∃ x, outcome = .ok x ∧ (emit x).Writes bs := by
  cases outcome with
  | error fault => cases h.1
  | ok x => exact ⟨x, rfl, h⟩

theorem Writes.unique (h : e.Writes bs) (h' : e.Writes cs) : bs = cs :=
  h.2.symm.trans h'.2

end Writes

end Emission

section Checks

variable {value : Value}

theorem expectItems_eq_ok {declared : Option Nat} {items : List Value} :
    expectItems declared value = .ok items ↔
      value = .array items ∧ ∀ n, declared = some n → n = items.length := by
  cases value with
  | array items' =>
    cases declared with
    | none => simp [expectItems, Value.asArray?]
    | some n =>
      simp only [expectItems, Value.asArray?]
      split <;> grind
  | _ => exact ⟨fun h => (nomatch h), fun h => (nomatch h.1)⟩

theorem expectBytes_eq_ok {declared : Option Nat} {bs : Bytes} :
    expectBytes declared value = .ok bs ↔
      value = .bytes bs ∧ ∀ n, declared = some n → n = bs.length := by
  cases value with
  | bytes bs' =>
    cases declared with
    | none => simp [expectBytes, Value.asBytes?]
    | some n =>
      simp only [expectBytes, Value.asBytes?]
      split <;> grind
  | _ => exact ⟨fun h => (nomatch h), fun h => (nomatch h.1)⟩

theorem expectText_eq_ok {bs : Bytes} :
    expectText value = .ok bs ↔ ∃ text, value = .string text ∧ Utf8.encode text = bs := by
  cases value <;> simp [expectText, Value.asString?]

theorem expectRecord_eq_ok {record : Record} :
    expectRecord value = .ok record ↔ value = .record record := by
  cases value <;> simp [expectRecord, Value.asRecord?]

theorem countValue_eq_ok {n : Nat} :
    countValue n = .ok value ↔ n < UInt64.size ∧ value = .uint (UInt64.ofNat n) := by
  unfold countValue Value.ofNat?
  split <;> grind

end Checks

theorem fitting_eq_of_le {limit offset : Nat} {pieces : List Piece}
    (h : offset + (pieces.flatMap Piece.bytes).length ≤ limit) :
    fitting limit pieces offset = (pieces.flatMap Piece.bytes, none) := by
  induction pieces generalizing offset with
  | nil => rfl
  | cons p rest ih =>
    simp only [List.flatMap_cons, List.length_append] at h ⊢
    have hp : offset + p.bytes.length ≤ limit := by omega
    have hrest : offset + p.bytes.length + (rest.flatMap Piece.bytes).length ≤ limit := by omega
    rw [fitting, if_pos hp, ih hrest]

theorem Emission.place_eq_of_le {e : Emission} {dest : Bytes} {offset : Nat}
    (h : offset + e.bytes.length ≤ dest.length) :
    e.place dest offset = ⟨dest.overwrite offset e.bytes, e.size.map fun n => offset + n⟩ := by
  obtain ⟨ps, failure⟩ := e
  have hfit := fitting_eq_of_le h
  have hplaced : placePieces ps dest offset =
      ⟨dest.overwrite offset (ps.flatMap Piece.bytes),
        .ok (offset + (ps.flatMap Piece.bytes).length)⟩ := by
    rw [placePieces, hfit]
  rw [place, hplaced]
  cases failure <;> rfl

theorem eq_of_fitting {limit offset : Nat} {pieces : List Piece} {bs : Bytes}
    (h : fitting limit pieces offset = (bs, none)) : bs = pieces.flatMap Piece.bytes := by
  induction pieces generalizing offset bs with
  | nil =>
    cases h
    rfl
  | cons p rest ih =>
    rw [fitting] at h
    split at h
    · cases hr : fitting limit rest (offset + p.bytes.length) with
      | mk behind rejected =>
        rw [hr] at h
        cases h
        rw [ih hr, List.flatMap_cons]
    · cases h

theorem Emission.size_of_place {e : Emission} {dest : Bytes} {offset stop : Nat}
    (h : (e.place dest offset).outcome = .ok stop) : ∃ n, e.size = .ok n ∧ stop = offset + n := by
  obtain ⟨ps, failure⟩ := e
  rw [place, placePieces] at h
  cases hf : fitting dest.length ps offset with
  | mk bs rejected =>
    rw [hf] at h
    cases rejected with
    | some p => cases failure <;> cases h
    | none =>
      cases failure with
      | some e => cases h
      | none =>
        cases h
        exact ⟨bs.length, by rw [eq_of_fitting hf]; rfl, rfl⟩

theorem Bytes.overwrite_append_replicate (out bs : Bytes) :
    Bytes.overwrite (out ++ List.replicate bs.length 0) out.length bs = out ++ bs := by
  have hrest : (out ++ List.replicate bs.length (0 : UInt8)).drop (out.length + bs.length) = [] := by
    apply List.drop_eq_nil_of_le
    simp
  rw [Bytes.overwrite, List.take_left, hrest, List.append_nil]

/-- A fault of the value alone: it does not depend on where the value is written. -/
def EncodeFault.OfValue : EncodeFault → Prop
  | .noRoom _ _ => False
  | .sizeMismatch _ _ => False
  | _ => True

namespace Emission

/-- If an emission stops, then because of a fault of the value. -/
def StopsByValue (e : Emission) : Prop :=
  ∀ failure, e.failure = some failure → failure.fault.OfValue

theorem stopsByValue_of_none {e : Emission} (h : e.failure = none) : e.StopsByValue := by
  intro failure hf
  cases h.symm.trans hf

theorem StopsByValue.append {a b : Emission} (ha : a.StopsByValue) (hb : b.StopsByValue) :
    (a ++ b).StopsByValue := by
  obtain ⟨ps, failure⟩ := a
  cases failure with
  | some e => exact fun failure hf => ha failure hf
  | none => exact fun failure hf => hb failure hf

theorem StopsByValue.within {e : Emission} (h : e.StopsByValue) (name : String) :
    (e.within name).StopsByValue := by
  intro failure hf
  obtain ⟨inner, hi, rfl⟩ := Option.map_eq_some_iff.1 hf
  exact h inner hi

theorem StopsByValue.ofExcept {α : Type} {outcome : Except EncodeFault α} {emit : α → Emission}
    (hfault : ∀ fault, outcome = .error fault → fault.OfValue)
    (hemit : ∀ a, outcome = .ok a → (emit a).StopsByValue) :
    (ofExcept outcome emit).StopsByValue := by
  cases outcome with
  | ok a => exact hemit a rfl
  | error fault =>
    intro failure hf
    cases hf
    exact hfault fault rfl

theorem StopsByValue.items {emit : Value → Emission} (h : ∀ value, (emit value).StopsByValue)
    (values : List Value) : (items emit values).StopsByValue := by
  induction values with
  | nil => exact stopsByValue_of_none rfl
  | cons value rest ih => exact (h value).append ih

end Emission

end PacketCodec
