import PacketCodec.Proofs.Codec.Emission
import PacketCodec.Proofs.Codec.Parts
import PacketCodec.Proofs.Except

/-!
# What reading and writing consist of

For each kind of codec, the steps that a successful decoding consists of and the parts that the bytes of a
written value consist of: the count that announces a length and the content behind it, a presence byte and
what is present, the items of an array and the fields of a container one after the other.
-/

namespace PacketCodec

section ReadItems

variable {read : Nat → Except ReadError Decoded} {count offset size : Nat} {values : List Value}

theorem readItems_succ_eq_ok :
    readItems read (count + 1) offset = .ok (values, size) ↔
      ∃ item rest size', read offset = .ok item ∧
        readItems read count (offset + item.size) = .ok (rest, size') ∧
        values = item.value :: rest ∧ size = item.size + size' := by
  simp only [readItems, Except.bind_eq_ok]
  constructor
  · rintro ⟨item, hi, ⟨rest, size'⟩, hr, h⟩
    cases h
    exact ⟨item, rest, size', hi, hr, rfl, rfl⟩
  · rintro ⟨item, rest, size', hi, hr, rfl, rfl⟩
    exact ⟨item, hi, (rest, size'), hr, rfl⟩

end ReadItems

theorem lengthOf_eq_ok {value : Value} {length : Nat} :
    lengthOf value = .ok length ↔ value.asNat? = some length := by
  rw [lengthOf]
  cases value.asNat? <;> simp

theorem guardZeroWidth_eq_ok {count remaining : Nat} {item item' : Decoded}
    (h : guardZeroWidth count remaining item = .ok item') : item' = item := by
  unfold guardZeroWidth at h
  split at h
  · cases h
  · cases h
    rfl

namespace Codec

variable {buf : Bytes} {scope : Scope} {offset : Nat} {d : Decoded}

section Decode

theorem decode_scalar_eq_ok {p : Primitive} :
    (scalar p).decode buf scope offset = .ok d ↔ p.scalar.read buf offset = .ok (d.value, d.size) := by
  simp only [decode, Except.bind_eq_ok]
  constructor
  · rintro ⟨⟨value, size⟩, hr, h⟩
    cases h
    exact hr
  · exact fun hr => ⟨_, hr, rfl⟩

theorem decode_text_eq_ok {count : Codec} :
    (text count).decode buf scope offset = .ok d ↔
      ∃ announced length bs s, count.decode buf scope offset = .ok announced ∧
        lengthOf announced.value = .ok length ∧
        takeCounted buf (offset + announced.size) length = .ok bs ∧ Utf8.decode bs = .ok s ∧
        d = ⟨.string s, announced.size + length⟩ := by
  simp only [decode, Except.bind_eq_ok]
  constructor
  · rintro ⟨announced, ha, length, hl, bs, hb, h⟩
    split at h
    · rename_i s hs
      cases h
      exact ⟨announced, length, bs, s, ha, hl, hb, hs, rfl⟩
    · cases h
  · rintro ⟨announced, length, bs, s, ha, hl, hb, hs, rfl⟩
    refine ⟨announced, ha, length, hl, bs, hb, ?_⟩
    rw [hs]
    rfl

theorem decode_block_eq_ok {length : Nat} :
    (block length).decode buf scope offset = .ok d ↔
      ∃ bs, takeCounted buf offset length = .ok bs ∧ d = ⟨.bytes bs, length⟩ := by
  simp only [decode, Except.bind_eq_ok]
  constructor
  · rintro ⟨bs, hb, h⟩
    cases h
    exact ⟨bs, hb, rfl⟩
  · rintro ⟨bs, hb, rfl⟩
    exact ⟨bs, hb, rfl⟩

theorem decode_countedBlock_eq_ok {count : Codec} :
    (countedBlock count).decode buf scope offset = .ok d ↔
      ∃ announced length bs, count.decode buf scope offset = .ok announced ∧
        lengthOf announced.value = .ok length ∧
        takeCounted buf (offset + announced.size) length = .ok bs ∧
        d = ⟨.bytes bs, announced.size + length⟩ := by
  simp only [decode, Except.bind_eq_ok]
  constructor
  · rintro ⟨announced, ha, length, hl, bs, hb, h⟩
    cases h
    exact ⟨announced, length, bs, ha, hl, hb, rfl⟩
  · rintro ⟨announced, length, bs, ha, hl, hb, rfl⟩
    exact ⟨announced, ha, length, hl, bs, hb, rfl⟩

theorem decode_option_eq_ok {inner : Codec} :
    (option inner).decode buf scope offset = .ok d ↔
      ∃ presence, takeBytes buf offset 1 = .ok presence ∧
        (presence = [0] ∧ d = ⟨.null, 1⟩ ∨
          presence ≠ [0] ∧ ∃ item, inner.decode buf scope (offset + 1) = .ok item ∧
            d = ⟨item.value, item.size + 1⟩) := by
  simp only [decode, Except.bind_eq_ok]
  constructor
  · rintro ⟨presence, hp, h⟩
    split at h
    · rename_i hnull
      cases h
      exact ⟨presence, hp, .inl ⟨hnull, rfl⟩⟩
    · rename_i hnull
      obtain ⟨item, hi, h⟩ := Except.bind_eq_ok.1 h
      cases h
      exact ⟨presence, hp, .inr ⟨hnull, item, hi, rfl⟩⟩
  · rintro ⟨presence, hp, ⟨hnull, rfl⟩ | ⟨hnull, item, hi, rfl⟩⟩
    · exact ⟨presence, hp, if_pos hnull⟩
    · refine ⟨presence, hp, ?_⟩
      rw [if_neg hnull]
      exact Except.bind_eq_ok.2 ⟨item, hi, rfl⟩

theorem decode_array_eq_ok {element : Codec} {length : Nat} :
    (array element length).decode buf scope offset = .ok d ↔
      ∃ values size,
        readItems (fun place => element.decode buf scope place) length offset = .ok (values, size) ∧
        d = ⟨.array values, size⟩ := by
  simp only [decode, Except.bind_eq_ok]
  constructor
  · rintro ⟨⟨values, size⟩, hr, h⟩
    cases h
    exact ⟨values, size, hr, rfl⟩
  · rintro ⟨values, size, hr, rfl⟩
    exact ⟨(values, size), hr, rfl⟩

theorem decode_countedArray_eq_ok {count element : Codec} :
    (countedArray count element).decode buf scope offset = .ok d ↔
      ∃ announced length values size, count.decode buf scope offset = .ok announced ∧
        lengthOf announced.value = .ok length ∧
        readItems (fun place => element.decode buf scope place >>=
            guardZeroWidth length (buf.length - (offset + announced.size)))
          length (offset + announced.size) = .ok (values, size) ∧
        d = ⟨.array values, announced.size + size⟩ := by
  simp only [decode, Except.bind_eq_ok]
  constructor
  · rintro ⟨announced, ha, length, hl, ⟨values, size⟩, hr, h⟩
    cases h
    exact ⟨announced, length, values, size, ha, hl, hr, rfl⟩
  · rintro ⟨announced, length, values, size, ha, hl, hr, rfl⟩
    exact ⟨announced, ha, length, hl, (values, size), hr, rfl⟩

theorem decode_of_guarded {element : Codec} {length remaining place : Nat} {item : Decoded}
    (h : element.decode buf scope place >>= guardZeroWidth length remaining = .ok item) :
    element.decode buf scope place = .ok item := by
  obtain ⟨item', hi, hguard⟩ := Except.bind_eq_ok.1 h
  rw [guardZeroWidth_eq_ok hguard]
  exact hi

theorem decode_container_eq_ok {fields : List (String × Codec)} :
    (container fields).decode buf scope offset = .ok d ↔
      ∃ record size, decodeFields fields buf scope offset [] = .ok (record, size) ∧
        d = ⟨.record record, size⟩ := by
  simp only [decode, Except.bind_eq_ok]
  constructor
  · rintro ⟨⟨record, size⟩, hr, h⟩
    cases h
    exact ⟨record, size, hr, rfl⟩
  · rintro ⟨record, size, hr, rfl⟩
    exact ⟨(record, size), hr, rfl⟩

theorem decodeFields_cons_eq_ok {name : String} {c : Codec} {rest : List (String × Codec)}
    {before record : Record} {size : Nat} :
    decodeFields ((name, c) :: rest) buf scope offset before = .ok (record, size) ↔
      ∃ item size', c.decode buf (before :: scope) offset = .ok item ∧
        decodeFields rest buf scope (offset + item.size) (Table.push before name item.value) =
          .ok (record, size') ∧
        size = item.size + size' := by
  simp only [decodeFields, Except.bind_eq_ok, Except.mapError_eq_ok]
  constructor
  · rintro ⟨item, hi, ⟨record', size'⟩, hr, h⟩
    cases h
    exact ⟨item, size', hi, hr, rfl⟩
  · rintro ⟨item, size', hi, hr, rfl⟩
    exact ⟨item, hi, (record, size'), hr, rfl⟩

theorem decode_switch_eq_ok {on : Discriminant} {branches : List (String × Codec)}
    {default : Codec} {size : Option Nat} :
    (switch on branches default size).decode buf scope offset = .ok d ↔
      ∃ key, on.key scope = .ok key ∧
        (alternative branches default key).decode buf scope offset = .ok d := by
  rw [decode_switch]
  cases on.key scope with
  | error fault => simp
  | ok key => simp

end Decode

section Writes

variable {full : Scope} {value : Value} {bs : Bytes}

theorem writes_countValue {count : Codec} {n : Nat}
    (h : (Emission.ofExcept (countValue n) fun v => count.emit full v).Writes bs) :
    n < UInt64.size ∧ (count.emit full (.uint (UInt64.ofNat n))).Writes bs := by
  obtain ⟨v, hv, h⟩ := h.of_ofExcept
  obtain ⟨hlt, rfl⟩ := countValue_eq_ok.1 hv
  exact ⟨hlt, h⟩

theorem writes_text {count : Codec} (h : ((text count).emit full value).Writes bs) :
    ∃ s counted, value = .string s ∧
      (Emission.ofExcept (countValue (Utf8.encode s).length) fun n => count.emit full n).Writes counted ∧
      bs = counted ++ Utf8.encode s := by
  rw [emit] at h
  obtain ⟨content, he, h⟩ := h.of_ofExcept
  obtain ⟨counted, rest, hcount, hrest, rfl⟩ := h.of_append
  cases hrest.unique (Emission.writes_piece content)
  obtain ⟨s, rfl, rfl⟩ := expectText_eq_ok.1 he
  exact ⟨s, counted, rfl, hcount, rfl⟩

theorem writes_block {length : Nat} (h : ((block length).emit full value).Writes bs) :
    value = .bytes bs ∧ length = bs.length := by
  rw [emit] at h
  obtain ⟨content, he, h⟩ := h.of_ofExcept
  cases h.unique (Emission.writes_piece content)
  obtain ⟨rfl, hlength⟩ := expectBytes_eq_ok.1 he
  exact ⟨rfl, hlength length rfl⟩

theorem writes_countedBlock {count : Codec} (h : ((countedBlock count).emit full value).Writes bs) :
    ∃ content counted, value = .bytes content ∧
      (Emission.ofExcept (countValue content.length) fun n => count.emit full n).Writes counted ∧
      bs = counted ++ content := by
  rw [emit] at h
  obtain ⟨content, he, h⟩ := h.of_ofExcept
  obtain ⟨counted, rest, hcount, hrest, rfl⟩ := h.of_append
  cases hrest.unique (Emission.writes_piece content)
  obtain ⟨rfl, _⟩ := expectBytes_eq_ok.1 he
  exact ⟨content, counted, rfl, hcount, rfl⟩

theorem writes_absent {inner : Codec} (h : ((option inner).emit full .null).Writes bs) : bs = [0] :=
  h.unique (Emission.writes_piece [0])

theorem writes_present {inner : Codec} (hv : value ≠ .null)
    (h : ((option inner).emit full value).Writes bs) :
    ∃ cs, (inner.emit full value).Writes cs ∧ bs = [1] ++ cs := by
  rw [emit_present hv] at h
  obtain ⟨presence, cs, hp, hinner, rfl⟩ := h.of_append
  cases hp.unique (Emission.writes_piece [1])
  exact ⟨cs, hinner, rfl⟩

theorem writes_array {element : Codec} {length : Nat}
    (h : ((array element length).emit full value).Writes bs) :
    ∃ items, value = .array items ∧ length = items.length ∧
      (Emission.items (fun item => element.emit full item) items).Writes bs := by
  rw [emit] at h
  obtain ⟨items, he, hitems⟩ := h.of_ofExcept
  obtain ⟨rfl, hlength⟩ := expectItems_eq_ok.1 he
  exact ⟨items, rfl, hlength length rfl, hitems⟩

theorem writes_countedArray {count element : Codec}
    (h : ((countedArray count element).emit full value).Writes bs) :
    ∃ items counted rest, value = .array items ∧
      (Emission.ofExcept (countValue items.length) fun n => count.emit full n).Writes counted ∧
      (Emission.items (fun item => element.emit full item) items).Writes rest ∧
      bs = counted ++ rest := by
  rw [emit] at h
  obtain ⟨items, he, h⟩ := h.of_ofExcept
  obtain ⟨counted, rest, hcount, hrest, rfl⟩ := h.of_append
  obtain ⟨rfl, _⟩ := expectItems_eq_ok.1 he
  exact ⟨items, counted, rest, rfl, hcount, hrest, rfl⟩

theorem writes_container {fields : List (String × Codec)}
    (h : ((container fields).emit full value).Writes bs) :
    ∃ record, value = .record record ∧ (emitFields fields full record).Writes bs := by
  rw [emit] at h
  obtain ⟨record, he, hfields⟩ := h.of_ofExcept
  obtain rfl := expectRecord_eq_ok.1 he
  exact ⟨record, rfl, hfields⟩

theorem writes_emitFields_cons {name : String} {c : Codec} {rest : List (String × Codec)}
    {record : Record} (h : (emitFields ((name, c) :: rest) full record).Writes bs) :
    ∃ first others, (c.emit (record :: full) (fieldValue record name)).Writes first ∧
      (emitFields rest full record).Writes others ∧ bs = first ++ others := by
  rw [emitFields] at h
  obtain ⟨first, others, hfirst, hothers, rfl⟩ := h.of_append
  exact ⟨first, others, hfirst.of_within, hothers, rfl⟩

theorem writes_switch {on : Discriminant} {branches : List (String × Codec)} {default : Codec}
    {size : Option Nat} (h : ((switch on branches default size).emit full value).Writes bs) :
    ∃ key, on.key full = .ok key ∧ ((alternative branches default key).emit full value).Writes bs := by
  rw [emit_switch] at h
  obtain ⟨key, hkey, h⟩ := h.of_ofExcept
  exact ⟨key, Except.mapError_eq_ok.1 hkey, h⟩

end Writes

end Codec

end PacketCodec
