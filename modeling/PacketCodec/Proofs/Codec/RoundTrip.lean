import PacketCodec.Proofs.Codec.Decoded
import PacketCodec.Proofs.Codec.Extension

/-!
# Round trips

Every value that was decoded can be encoded, and is decoded again from what it is encoded by, whatever
follows. It need not take the same bytes as before, but it never takes more, so offsets that
were in range stay so. A switch is decoded in the scope of the fields before it and encoded in the scope of
the whole record; the discriminant it has found is still found there.
-/

namespace PacketCodec

/-- What an emission writes takes no more than `size` bytes, and is read with the given result
wherever it starts, up to an offset. -/
def Recodes {α : Type} (read : Bytes → Nat → Except ReadError α) (result : Nat → α) (e : Emission)
    (last size : Nat) : Prop :=
  ∃ bs, e.Writes bs ∧ bs.length ≤ size ∧
    ∀ pre post, pre.length ≤ last → read (pre ++ bs ++ post) pre.length = .ok (result bs.length)

namespace Recodes

variable {α β γ : Type} {last size size' : Nat} {e e' : Emission}
  {read : Bytes → Nat → Except ReadError α} {read' : Bytes → Nat → Except ReadError β}
  {readAll : Bytes → Nat → Except ReadError γ} {result : Nat → α} {result' : Nat → β}
  {resultAll : Nat → γ}

theorem imp (h : Recodes read result e last size)
    (hread : ∀ buf offset n, read buf offset = .ok (result n) →
      readAll buf offset = .ok (resultAll n)) : Recodes readAll resultAll e last size := by
  obtain ⟨bs, hw, hle, hr⟩ := h
  exact ⟨bs, hw, hle, fun pre post hpre => hread _ _ _ (hr pre post hpre)⟩

theorem append (h : Recodes read result e last size)
    (h' : Recodes read' result' e' (last + size) size')
    (hread : ∀ buf offset m n, read buf offset = .ok (result m) →
      read' buf (offset + m) = .ok (result' n) → readAll buf offset = .ok (resultAll (m + n))) :
    Recodes readAll resultAll (e ++ e') last (size + size') := by
  obtain ⟨bs, hw, hle, hr⟩ := h
  obtain ⟨bs', hw', hle', hr'⟩ := h'
  refine ⟨bs ++ bs', hw.append hw', ?_, fun pre post hpre => ?_⟩
  · rw [List.length_append]
    omega
  · have hfirst := hr pre (bs' ++ post) hpre
    have hsecond := hr' (pre ++ bs) post (by rw [List.length_append]; omega)
    rw [List.length_append] at hsecond ⊢
    simp only [List.append_assoc] at hfirst hsecond ⊢
    exact hread _ _ _ _ hfirst hsecond

theorem ofExcept {δ : Type} {outcome : Except EncodeFault δ} {emit : δ → Emission} {x : δ}
    (hx : outcome = .ok x) (h : Recodes read result (emit x) last size) :
    Recodes read result (Emission.ofExcept outcome emit) last size := by
  rw [hx]
  exact h

theorem within (h : Recodes read result e last size) (name : String) :
    Recodes read result (e.within name) last size := by
  obtain ⟨bs, hw, hle, hr⟩ := h
  exact ⟨bs, hw.within name, hle, hr⟩

end Recodes

private theorem recodes_takeBytes (bs : Bytes) (last : Nat) :
    Recodes (fun buf offset => (takeBytes buf offset bs.length).map fun taken => (taken, bs.length))
      (fun n => (bs, n)) (.piece bs) last bs.length := by
  refine ⟨bs, Emission.writes_piece bs, Nat.le_refl _, fun pre post _ => ?_⟩
  have htake : takeBytes (pre ++ bs ++ post) pre.length bs.length = .ok bs :=
    takeBytes_eq_ok.2 ⟨pre, post, rfl, rfl, rfl⟩
  simp only [htake, Except.map]

private theorem recodes_takeCounted {buf bs : Bytes} {offset count : Nat}
    (h : takeCounted buf offset count = .ok bs) :
    Recodes (fun buf offset => (takeCounted buf offset count).map fun taken => (taken, count))
      (fun n => (bs, n)) (.piece bs) offset count := by
  obtain ⟨hmax, h⟩ := takeCounted_eq_ok.1 h
  obtain ⟨_, _, _, _, rfl⟩ := takeBytes_eq_ok.1 h
  refine ⟨bs, Emission.writes_piece bs, Nat.le_refl _, fun pre post hpre => ?_⟩
  have htake : takeBytes (pre ++ bs ++ post) pre.length bs.length = .ok bs :=
    takeBytes_eq_ok.2 ⟨pre, post, rfl, rfl, rfl⟩
  have hcounted : takeCounted (pre ++ bs ++ post) pre.length bs.length = .ok bs :=
    takeCounted_eq_ok.2 ⟨by omega, htake⟩
  simp only [hcounted, Except.map]

private theorem eq_of_map_pair {taking : Except ReadError Bytes} {bs : Bytes} {count n : Nat}
    (h : (taking.map fun taken => (taken, count)) = .ok (bs, n)) : taking = .ok bs ∧ n = count := by
  obtain ⟨taken, ht, h⟩ := Except.map_eq_ok.1 h
  cases h
  exact ⟨ht, rfl⟩

private theorem recodes_readItems (read : Bytes → Nat → Except ReadError Decoded)
    {emit : Value → Emission} {buf : Bytes}
    (hitem : ∀ offset item, read buf offset = .ok item →
      Recodes read (fun n => ⟨item.value, n⟩) (emit item.value) offset item.size)
    {count offset size : Nat} {values : List Value}
    (h : readItems (read buf) count offset = .ok (values, size)) :
    values.length = count ∧
      Recodes (fun buf offset => readItems (read buf) count offset) (fun n => (values, n))
        (.items emit values) offset size := by
  induction count generalizing offset values size with
  | zero =>
    cases h
    exact ⟨rfl, [], Emission.writes_empty, Nat.le_refl 0, fun _ _ _ => rfl⟩
  | succ count ih =>
    obtain ⟨item, rest, size', hi, hr, rfl, rfl⟩ := readItems_succ_eq_ok.1 h
    obtain ⟨hlength, hrest⟩ := ih hr
    refine ⟨congrArg Nat.succ hlength, (hitem offset item hi).append hrest ?_⟩
    intro buf' offset' m n hm hn
    exact readItems_succ_eq_ok.2 ⟨_, _, _, hm, hn, rfl, rfl⟩

namespace Codec

/-- A codec is read in one scope what it is written by in another. -/
abbrev RecodesIn (c : Codec) (scope full : Scope) (value : Value) (last size : Nat) : Prop :=
  Recodes (fun buf offset => c.decode buf scope offset) (fun n => ⟨value, n⟩)
    (c.emit full value) last size

private theorem recodes_count {count : Codec} {scope full : Scope} {announced : Decoded}
    {length last : Nat} (h : count.RecodesIn scope full announced.value last announced.size)
    (hl : lengthOf announced.value = .ok length) :
    Recodes (fun buf offset => count.decode buf scope offset) (fun n => ⟨announced.value, n⟩)
      (.ofExcept (countValue length) fun v => count.emit full v) last announced.size := by
  have hnone : (count.emit full announced.value).failure = none := by
    obtain ⟨bs, hw, _⟩ := h
    exact hw.1
  rw [emit_countValue hl hnone]
  exact h

private theorem recodes_counted {α : Type} {read : Bytes → Nat → Except ReadError α} {result : Nat → α}
    {count : Codec} {scope full : Scope} {announced : Decoded} {length last : Nat} {buf bs : Bytes}
    (h : count.RecodesIn scope full announced.value last announced.size)
    (hl : lengthOf announced.value = .ok length)
    (hb : takeCounted buf (last + announced.size) length = .ok bs)
    (hread : ∀ buf offset m, count.decode buf scope offset = .ok ⟨announced.value, m⟩ →
      takeCounted buf (offset + m) length = .ok bs → read buf offset = .ok (result (m + length))) :
    Recodes read result ((Emission.ofExcept (countValue bs.length) fun v => count.emit full v) ++ .piece bs)
      last (announced.size + length) := by
  have hcount := recodes_count h hl
  rw [← length_of_takeCounted hb] at hcount
  apply hcount.append (recodes_takeCounted hb)
  intro buf' offset m n hm hn
  obtain ⟨ht, rfl⟩ := eq_of_map_pair hn
  exact hread buf' offset m hm ht

private theorem recodes_null {inner : Codec} {scope full : Scope} {last size : Nat} (hsize : 1 ≤ size) :
    (Codec.option inner).RecodesIn scope full .null last size := by
  refine ⟨[0], Emission.writes_piece [0], hsize, fun pre post _ => ?_⟩
  have htake : takeBytes (pre ++ [0] ++ post) pre.length 1 = .ok [0] :=
    takeBytes_eq_ok.2 ⟨pre, post, rfl, rfl, rfl⟩
  exact decode_option_eq_ok.2 ⟨[0], htake, .inl ⟨rfl, rfl⟩⟩

private theorem recodes_present {inner : Codec} {scope full : Scope} {value : Value} {last size : Nat}
    (hv : value ≠ .null) (h : inner.RecodesIn scope full value (last + 1) size) :
    (Codec.option inner).RecodesIn scope full value last (size + 1) := by
  rw [RecodesIn, emit_present hv, Nat.add_comm]
  apply (recodes_takeBytes [1] last).append h
  intro buf offset m n hm hn
  obtain ⟨ht, rfl⟩ := eq_of_map_pair hm
  refine decode_option_eq_ok.2 ⟨[1], ht, .inr ⟨by decide, _, hn, ?_⟩⟩
  rw [Nat.add_comm]
  rfl

private theorem recodes_fields {fields : List (String × Codec)}
    (ih : ∀ field ∈ fields, ∀ {buf scope full offset d}, scope.Grows full →
      field.2.decode buf scope offset = .ok d → field.2.RecodesIn scope full d.value offset d.size)
    {buf : Bytes} {scope full : Scope} (hg : scope.Grows full) {offset size : Nat}
    {before record : Record} (hn : (Table.names before ++ Table.names fields).Nodup)
    (h : decodeFields fields buf scope offset before = .ok (record, size)) :
    Recodes (fun buf offset => decodeFields fields buf scope offset before)
      (fun n => (record, n)) (emitFields fields full record) offset size := by
  induction fields generalizing offset before size with
  | nil =>
    cases h
    exact ⟨[], Emission.writes_empty, Nat.le_refl 0, fun _ _ _ => rfl⟩
  | cons field rest ihRest =>
    obtain ⟨name, c⟩ := field
    have hbefore := prefix_of_decodeFields h
    obtain ⟨item, size', hi, hr, rfl⟩ := decodeFields_cons_eq_ok.1 h
    obtain ⟨hn', hvalue⟩ := nodup_and_fieldValue hn (prefix_of_decodeFields hr)
    have hrest := ihRest (fun field hf => ih field (List.mem_cons_of_mem _ hf)) hn' hr
    have hc := ih (name, c) List.mem_cons_self (.cons hbefore hg) hi
    rw [emitFields, hvalue]
    apply (hc.within name).append hrest
    intro buf' offset' m n hm hn
    exact decodeFields_cons_eq_ok.2 ⟨_, _, hm, hn, rfl⟩

def IsFloat : Codec → Prop
  | .scalar p => p.scalar.IsFloat
  | _ => False

/-- A codec has no floating-point number in it. -/
def FloatFree (c : Codec) : Prop :=
  c.Everywhere fun d => ¬ d.IsFloat

/-- What decoding and encoding again asks of each part of a codec. -/
def Recodable (c : Codec) : Prop :=
  (c.WellBuilt ∧ c.CountsBytes) ∧ ¬ c.IsFloat

/-- What was decoded is decoded again from what it is encoded by, in any scope that has grown. -/
theorem recodesIn_of_decode {c : Codec} (hc : c.Everywhere Recodable) :
    ∀ {buf scope full offset d}, scope.Grows full → c.decode buf scope offset = .ok d →
      c.RecodesIn scope full d.value offset d.size := by
  induction c with
  | scalar p =>
    intro buf scope full offset d _ h
    obtain ⟨bs, he, hle, hback⟩ :=
      Scalar.readsBack_of_read p.name p.fitsWord hc.self.2 (decode_scalar_eq_ok.1 h)
    refine .ofExcept he ⟨bs, Scalar.writes_pieces he, hle, fun pre post _ => ?_⟩
    exact decode_scalar_eq_ok.2 (hback pre post)
  | text count ih =>
    intro buf scope full offset d hg h
    obtain ⟨announced, length, bs, s, ha, hl, hb, hs, rfl⟩ := decode_text_eq_ok.1 h
    have htext : expectText (.string s) = .ok bs := congrArg Except.ok (Utf8.encode_of_decode hs)
    refine .ofExcept htext (recodes_counted (ih (hc.part List.mem_cons_self) hg ha) hl hb ?_)
    intro buf' offset' m hm ht
    exact decode_text_eq_ok.2 ⟨_, _, _, _, hm, hl, ht, hs, rfl⟩
  | block length =>
    intro buf scope full offset d _ h
    obtain ⟨bs, hb, rfl⟩ := decode_block_eq_ok.1 h
    have hbytes : expectBytes (some length) (.bytes bs) = .ok bs :=
      if_pos (length_of_takeCounted hb).symm
    refine .ofExcept hbytes ((recodes_takeCounted hb).imp ?_)
    intro buf' offset' n hn
    obtain ⟨ht, rfl⟩ := eq_of_map_pair hn
    exact decode_block_eq_ok.2 ⟨_, ht, rfl⟩
  | countedBlock count ih =>
    intro buf scope full offset d hg h
    obtain ⟨announced, length, bs, ha, hl, hb, rfl⟩ := decode_countedBlock_eq_ok.1 h
    have hbytes : expectBytes none (.bytes bs) = .ok bs := rfl
    refine .ofExcept hbytes (recodes_counted (ih (hc.part List.mem_cons_self) hg ha) hl hb ?_)
    intro buf' offset' m hm ht
    exact decode_countedBlock_eq_ok.2 ⟨_, _, _, hm, hl, ht, rfl⟩
  | option inner ih =>
    intro buf scope full offset d hg h
    obtain ⟨presence, _, ⟨_, rfl⟩ | ⟨_, item, hi, rfl⟩⟩ := decode_option_eq_ok.1 h
    · exact recodes_null (Nat.le_refl 1)
    · -- A value that is there may be null itself, and is then encoded as if it were not.
      by_cases hv : item.value = .null
      · rw [hv]
        exact recodes_null (Nat.le_add_left 1 item.size)
      · exact recodes_present hv (ih (hc.part List.mem_cons_self) hg hi)
  | array element length ih =>
    intro buf scope full offset d hg h
    obtain ⟨values, size, hr, rfl⟩ := decode_array_eq_ok.1 h
    obtain ⟨hlength, hitems⟩ := recodes_readItems (fun buf place => element.decode buf scope place)
      (fun _ _ hi => ih (hc.part List.mem_cons_self) hg hi) hr
    have hexpect : expectItems (some length) (.array values) = .ok values := if_pos hlength.symm
    refine .ofExcept hexpect (hitems.imp fun buf' offset' n hn => ?_)
    exact decode_array_eq_ok.2 ⟨_, _, hn, rfl⟩
  | countedArray count element ihCount ihElement =>
    intro buf scope full offset d hg h
    have hbytes : element.TakesBytes := hc.self.1.2
    have helement := hc.part (List.mem_cons_of_mem _ List.mem_cons_self)
    obtain ⟨announced, length, values, size, ha, hl, hr, rfl⟩ := decode_countedArray_eq_ok.1 h
    simp only [hbytes.decode_guarded] at hr
    obtain ⟨hlength, hitems⟩ := recodes_readItems (fun buf place => element.decode buf scope place)
      (fun _ _ hi => ihElement helement hg hi) hr
    have hcount := recodes_count (ihCount (hc.part List.mem_cons_self) hg ha) hl
    rw [← hlength] at hcount
    have hexpect : expectItems none (.array values) = .ok values := rfl
    refine .ofExcept hexpect (hcount.append hitems fun buf' offset' m n hm hn => ?_)
    refine decode_countedArray_eq_ok.2 ⟨_, _, _, _, hm, hl, ?_, rfl⟩
    simp only [hbytes.decode_guarded]
    exact hn
  | container fields ih =>
    intro buf scope full offset d hg h
    obtain ⟨record, size, hr, rfl⟩ := decode_container_eq_ok.1 h
    -- Fields were decoded in a scope with those before them, and are encoded in one with all of them.
    have hn : (Table.names ([] : Record) ++ Table.names fields).Nodup := hc.self.1.1
    have hfields := recodes_fields
      (fun field hf _ _ _ _ _ hg hd => ih field hf (hc.field hf) hg hd) hg hn hr
    have hexpect : expectRecord (.record record) = .ok record := rfl
    refine .ofExcept hexpect (hfields.imp fun buf' offset' n hn => ?_)
    exact decode_container_eq_ok.2 ⟨_, _, hn, rfl⟩
  | switch on branches default size ihBranches ihDefault =>
    intro buf scope full offset d hg h
    obtain ⟨key, hk, h⟩ := decode_switch_eq_ok.1 h
    have halt := alternative_of_forall
      (P := fun e => e.Everywhere Recodable → e.decode buf scope offset = .ok d →
        e.RecodesIn scope full d.value offset d.size)
      (fun branch hb he hd => ihBranches branch hb he hg hd)
      (fun he hd => ihDefault he hg hd) key (hc.alternative key) h
    have hkey : (on.key full).mapError EncodeFault.discriminant = .ok key :=
      Except.mapError_eq_ok.2 (Discriminant.key_of_grows hg hk)
    rw [RecodesIn, emit_switch]
    refine .ofExcept hkey (halt.imp fun buf' offset' n hn => ?_)
    exact decode_switch_eq_ok.2 ⟨key, hk, hn⟩

/-- Decoding can be repeated: what a compiled codec decodes is encoded, and is decoded again, and
nothing else with it, whatever follows. -/
theorem Compiled.decode_encode_decode {c : Codec} (h : c.Compiled) (hf : c.FloatFree)
    (hi : c.ItemsTakeBytes) {buf : Bytes} {packet : Packet}
    (hp : (PacketType.ofCodec c).decode buf = .ok packet) :
    ∃ bs, (PacketType.ofCodec c).encode packet.data = .ok bs ∧
      ∀ suffix, (PacketType.ofCodec c).decode (bs ++ suffix) = .ok ⟨packet.data, bs.length⟩ := by
  obtain ⟨d, hd, hp⟩ := Except.bind_eq_ok.1 hp
  cases hp
  have hc : c.Everywhere Recodable := (h.wellBuilt.and hi).and hf
  obtain ⟨bs, hw, _, hback⟩ := recodesIn_of_decode hc (Scope.Grows.refl []) hd
  refine ⟨bs, ?_, fun suffix => ?_⟩
  · have hm : c.measure [] d.value = .ok bs.length :=
      (measure_eq_size h.wellBuilt [] d.value).trans hw.size
    rw [PacketType.encode, PacketType.appendTo_ofCodec h.wellBuilt, hm, hw.2]
    rfl
  · have hread : c.decode (bs ++ suffix) [] 0 = .ok ⟨d.value, bs.length⟩ :=
      hback [] suffix (Nat.le_refl 0)
    exact Except.bind_eq_ok.2 ⟨_, hread, rfl⟩

theorem message_floatFree : message.FloatFree :=
  message_everywhere id id id id id fun p hp => by
    rcases hp with rfl | rfl | rfl | rfl <;> exact id

theorem message_decode_encode_decode :
    message.Compiled ∧ message.FloatFree ∧ message.ItemsTakeBytes ∧
      ((PacketType.ofCodec message).decode [2, 129, 0, 1, 97, 7, 255, 255] = .ok
        ⟨.record [("kind", .uint 2), ("names", .array [.string "a"]), ("body", .int (-1))], 8⟩) ∧
      ∃ bs, (PacketType.ofCodec message).encode
          (.record [("kind", .uint 2), ("names", .array [.string "a"]), ("body", .int (-1))]) =
            .ok bs ∧
        ∀ suffix, (PacketType.ofCodec message).decode (bs ++ suffix) = .ok
          ⟨.record [("kind", .uint 2), ("names", .array [.string "a"]), ("body", .int (-1))],
            bs.length⟩ := by
  have hdecode : (PacketType.ofCodec message).decode [2, 129, 0, 1, 97, 7, 255, 255] = .ok
      ⟨.record [("kind", .uint 2), ("names", .array [.string "a"]), ("body", .int (-1))], 8⟩ := by
    rfl
  exact ⟨message_compiled, message_floatFree, message_itemsTakeBytes, hdecode,
    Compiled.decode_encode_decode message_compiled message_floatFree message_itemsTakeBytes hdecode⟩

end Codec

end PacketCodec
