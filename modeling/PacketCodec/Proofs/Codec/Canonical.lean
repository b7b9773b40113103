import PacketCodec.Proofs.Codec.Decoded
import PacketCodec.Proofs.Codec.Extension

/-!
# Canonical formats

Integers of a fixed width have one spelling for each value, and so has everything that is put together
from them without an option. What such a codec has decoded it encodes by the very bytes that were
consumed: the encoding of each part is what stands in the buffer where that part was decoded.
-/

namespace PacketCodec

namespace Emission

/-- An emission writes what stands in a buffer at an offset. -/
def Restores (e : Emission) (buf : Bytes) (offset size : Nat) : Prop :=
  e.Writes ((buf.drop offset).take size)

variable {e e' : Emission} {buf : Bytes} {offset size size' : Nat}

theorem restores_empty (buf : Bytes) (offset : Nat) : empty.Restores buf offset 0 := by
  rw [Restores, List.take_zero]
  exact writes_empty

theorem Restores.append (h : e.Restores buf offset size)
    (h' : e'.Restores buf (offset + size) size') : (e ++ e').Restores buf offset (size + size') := by
  rw [Restores, List.take_add, List.drop_drop]
  exact Writes.append h h'

theorem Restores.ofExcept {α : Type} {outcome : Except EncodeFault α} {emit : α → Emission} {x : α}
    (hx : outcome = .ok x) (h : (emit x).Restores buf offset size) :
    (ofExcept outcome emit).Restores buf offset size :=
  Writes.ofExcept hx h

theorem restores_piece {bs : Bytes} (h : takeCounted buf offset size = .ok bs) :
    (piece bs).Restores buf offset size := by
  rw [Restores, ← eq_of_takeBytes (takeCounted_eq_ok.1 h).2]
  exact writes_piece bs

theorem restores_items {read : Nat → Except ReadError Decoded} {emit : Value → Emission}
    (hitem : ∀ offset item, read offset = .ok item →
      (emit item.value).Restores buf offset item.size) {count : Nat} {values : List Value}
    (h : readItems read count offset = .ok (values, size)) :
    values.length = count ∧ (items emit values).Restores buf offset size := by
  induction count generalizing offset values size with
  | zero =>
    cases h
    exact ⟨rfl, restores_empty buf offset⟩
  | succ count ih =>
    obtain ⟨item, rest, size', hi, hr, rfl, rfl⟩ := readItems_succ_eq_ok.1 h
    obtain ⟨hlength, hrest⟩ := ih hr
    exact ⟨congrArg Nat.succ hlength, (hitem offset item hi).append hrest⟩

end Emission

namespace Codec

def IsCanonical : Codec → Prop
  | .scalar p => p.scalar.IsCanonical
  | .option _ => False
  | _ => True

/-- A codec is put together from integers of a fixed width and void, without options. -/
def Canonical (c : Codec) : Prop :=
  c.Everywhere IsCanonical

/-- What restoring the consumed bytes asks of each part of a codec. -/
def Restorable (c : Codec) : Prop :=
  c.WellBuilt ∧ c.IsCanonical

variable {buf : Bytes} {offset size : Nat}

private theorem restores_count {count : Codec} {full : Scope} {announced : Decoded} {length : Nat}
    (h : (count.emit full announced.value).Restores buf offset announced.size)
    (hl : lengthOf announced.value = .ok length) :
    (Emission.ofExcept (countValue length) fun v => count.emit full v).Restores buf offset
      announced.size := by
  rw [emit_countValue hl h.1]
  exact h

private theorem restores_fields {fields : List (String × Codec)}
    (ih : ∀ field ∈ fields, ∀ {scope full offset d}, scope.Grows full →
      field.2.decode buf scope offset = .ok d →
      (field.2.emit full d.value).Restores buf offset d.size)
    {scope full : Scope} (hg : scope.Grows full) {before record : Record}
    (hn : (Table.names before ++ Table.names fields).Nodup)
    (h : decodeFields fields buf scope offset before = .ok (record, size)) :
    (emitFields fields full record).Restores buf offset size := by
  induction fields generalizing offset before size with
  | nil =>
    cases h
    exact Emission.restores_empty buf offset
  | cons field rest ihRest =>
    obtain ⟨name, c⟩ := field
    have hbefore := prefix_of_decodeFields h
    obtain ⟨item, size', hi, hr, rfl⟩ := decodeFields_cons_eq_ok.1 h
    obtain ⟨hn', hvalue⟩ := nodup_and_fieldValue hn (prefix_of_decodeFields hr)
    have hrest := ihRest (fun field hf => ih field (List.mem_cons_of_mem _ hf)) hn' hr
    have hc := ih (name, c) List.mem_cons_self (.cons hbefore hg) hi
    rw [emitFields, hvalue]
    exact Emission.Restores.append (hc.within name) hrest

/-- What was decoded is encoded, in any scope that has grown, by the bytes that were consumed. -/
theorem restores_of_decode {c : Codec} (hc : c.Everywhere Restorable) :
    ∀ {scope full offset d}, scope.Grows full → c.decode buf scope offset = .ok d →
      (c.emit full d.value).Restores buf offset d.size := by
  induction c with
  | scalar p =>
    intro scope full offset d _ h
    have hencode := Scalar.encode_of_read p.name p.fitsWord hc.self.2 (decode_scalar_eq_ok.1 h)
    exact .ofExcept hencode (Scalar.writes_pieces hencode)
  | text count ih =>
    intro scope full offset d hg h
    obtain ⟨announced, length, bs, s, ha, hl, hb, hs, rfl⟩ := decode_text_eq_ok.1 h
    have htext : expectText (.string s) = .ok bs := congrArg Except.ok (Utf8.encode_of_decode hs)
    have hcount := restores_count (ih (hc.part List.mem_cons_self) hg ha) hl
    refine .ofExcept htext ?_
    rw [length_of_takeCounted hb]
    exact hcount.append (Emission.restores_piece hb)
  | block length =>
    intro scope full offset d _ h
    obtain ⟨bs, hb, rfl⟩ := decode_block_eq_ok.1 h
    have hbytes : expectBytes (some length) (.bytes bs) = .ok bs :=
      if_pos (length_of_takeCounted hb).symm
    exact .ofExcept hbytes (Emission.restores_piece hb)
  | countedBlock count ih =>
    intro scope full offset d hg h
    obtain ⟨announced, length, bs, ha, hl, hb, rfl⟩ := decode_countedBlock_eq_ok.1 h
    have hbytes : expectBytes none (.bytes bs) = .ok bs := rfl
    have hcount := restores_count (ih (hc.part List.mem_cons_self) hg ha) hl
    refine .ofExcept hbytes ?_
    rw [length_of_takeCounted hb]
    exact hcount.append (Emission.restores_piece hb)
  | option inner => exact hc.self.2.elim
  | array element length ih =>
    intro scope full offset d hg h
    obtain ⟨values, size, hr, rfl⟩ := decode_array_eq_ok.1 h
    obtain ⟨hlength, hitems⟩ := Emission.restores_items
      (fun _ _ hi => ih (hc.part List.mem_cons_self) hg hi) hr
    have hexpect : expectItems (some length) (.array values) = .ok values := if_pos hlength.symm
    exact .ofExcept hexpect hitems
  | countedArray count element ihCount ihElement =>
    intro scope full offset d hg h
    obtain ⟨announced, length, values, size, ha, hl, hr, rfl⟩ := decode_countedArray_eq_ok.1 h
    have helement := hc.part (List.mem_cons_of_mem _ List.mem_cons_self)
    obtain ⟨hlength, hitems⟩ := Emission.restores_items
      (fun _ _ hi => ihElement helement hg (decode_of_guarded hi)) hr
    have hcount := restores_count (ihCount (hc.part List.mem_cons_self) hg ha) hl
    have hexpect : expectItems none (.array values) = .ok values := rfl
    refine .ofExcept hexpect ?_
    rw [hlength]
    exact hcount.append hitems
  | container fields ih =>
    intro scope full offset d hg h
    obtain ⟨record, size, hr, rfl⟩ := decode_container_eq_ok.1 h
    have hn : (Table.names ([] : Record) ++ Table.names fields).Nodup := hc.self.1
    have hexpect : expectRecord (.record record) = .ok record := rfl
    exact .ofExcept hexpect
      (restores_fields (fun field hf _ _ _ _ hg hd => ih field hf (hc.field hf) hg hd) hg hn hr)
  | switch on branches default size ihBranches ihDefault =>
    intro scope full offset d hg h
    obtain ⟨key, hk, h⟩ := decode_switch_eq_ok.1 h
    have halt := alternative_of_forall
      (P := fun e => e.Everywhere Restorable → e.decode buf scope offset = .ok d →
        (e.emit full d.value).Restores buf offset d.size)
      (fun branch hb he hd => ihBranches branch hb he hg hd)
      (fun he hd => ihDefault he hg hd) key (hc.alternative key) h
    have hkey : (on.key full).mapError EncodeFault.discriminant = .ok key :=
      Except.mapError_eq_ok.2 (Discriminant.key_of_grows hg hk)
    rw [emit_switch]
    exact .ofExcept hkey halt

/-- A compiled codec that is canonical encodes what it has decoded by the bytes that it has consumed. -/
theorem Compiled.encode_eq_take_of_decode {c : Codec} (h : c.Compiled) (hc : c.Canonical) {packet : Packet}
    (hp : (PacketType.ofCodec c).decode buf = .ok packet) :
    packet.size ≤ buf.length ∧
      (PacketType.ofCodec c).encode packet.data = .ok (buf.take packet.size) := by
  obtain ⟨d, hd, hp⟩ := Except.bind_eq_ok.1 hp
  cases hp
  have hrestores := restores_of_decode (h.wellBuilt.and hc) (Scope.Grows.refl []) hd
  constructor
  · have hcovers := covers_of_decode hd
    unfold Bytes.Covers at hcovers
    change d.size ≤ buf.length
    omega
  · exact PacketType.encode_ofCodec h.wellBuilt hrestores

theorem report_canonical : report.Canonical := by
  have leaf (p : Primitive) (hp : p.scalar.IsCanonical) : (Codec.scalar p).Canonical :=
    .intro hp fun _ h => nomatch h
  have pair : (Codec.block 2).Canonical := .intro trivial fun _ h => nomatch h
  refine .intro trivial fun d hd => ?_
  simp only [report, parts, ofBranches, List.map_cons, List.map_nil, List.mem_cons,
    List.not_mem_nil, or_false] at hd
  rcases hd with rfl | rfl | rfl | rfl
  · exact leaf .u8 trivial
  · refine .intro trivial fun d hd => ?_
    simp only [parts, List.map_cons, List.map_nil, List.mem_cons, List.not_mem_nil, or_false] at hd
    rcases hd with rfl | rfl | rfl
    · exact leaf .void trivial
    · exact leaf .li16 trivial
    · exact pair
  · refine .intro trivial fun d hd => ?_
    simp only [parts, List.map_cons, List.map_nil, List.mem_cons, List.not_mem_nil, or_false] at hd
    rcases hd with rfl | rfl | rfl | rfl
    · exact leaf .void trivial
    · exact .intro trivial fun d hd => List.mem_singleton.1 hd ▸ leaf .u8 trivial
    · exact leaf .i8 trivial
    · exact pair
  · refine .intro trivial fun d hd => ?_
    simp only [parts, List.mem_cons, List.not_mem_nil, or_false] at hd
    rcases hd with rfl | rfl
    · exact leaf .i8 trivial
    · exact leaf .u16 trivial

/-- A report of the first kind with one mark, and a byte behind it that does not belong to it. -/
theorem report_encode_eq_take_of_decode :
    report.Compiled ∧ report.Canonical ∧
      ((PacketType.ofCodec report).decode [1, 254, 255, 2, 104, 105, 1, 0, 7, 99] = .ok
        ⟨.record [("kind", .uint 1), ("level", .int (-2)), ("note", .string "hi"),
          ("marks", .array [.uint 7])], 9⟩) ∧
      (PacketType.ofCodec report).encode
          (.record [("kind", .uint 1), ("level", .int (-2)), ("note", .string "hi"),
            ("marks", .array [.uint 7])]) = .ok [1, 254, 255, 2, 104, 105, 1, 0, 7] := by
  have hdecode : (PacketType.ofCodec report).decode [1, 254, 255, 2, 104, 105, 1, 0, 7, 99] = .ok
      ⟨.record [("kind", .uint 1), ("level", .int (-2)), ("note", .string "hi"),
        ("marks", .array [.uint 7])], 9⟩ := by
    rfl
  exact ⟨report_compiled, report_canonical, hdecode,
    (Compiled.encode_eq_take_of_decode report_compiled report_canonical hdecode).2⟩

end Codec

end PacketCodec
