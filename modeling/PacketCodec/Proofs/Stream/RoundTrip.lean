import PacketCodec.Proofs.Codec.RoundTrip
import PacketCodec.Proofs.Framing.Frames
import PacketCodec.Proofs.Stream.Contents
import PacketCodec.Stream.PacketReader

/-!
# Packets over streams

Values that are written to a sink are read from a source that delivers what the sink has accepted,
however writes and reads divide it. The writer's part is that the sink takes whole encodings, one behind
the other. The reader's part is what it owes at any time: the packets that wait, and those whose
frames make up what its parser holds and what the source has yet to deliver.
-/

namespace PacketCodec

namespace Source

/-- A source delivers bytes in pieces, none of them empty, with interruptions anywhere. -/
inductive Delivers : Source → Bytes → Prop
  | ended : Delivers [] []
  | interrupted {source : Source} {bs : Bytes} (h : Delivers source bs) :
      Delivers (.interrupted :: source) bs
  | data {source : Source} {piece bs : Bytes} (nonempty : piece ≠ []) (h : Delivers source bs) :
      Delivers (.data piece :: source) (piece ++ bs)

section Read

variable {source source' : Source} {room : Nat} {bs : Bytes}

theorem Delivers.of_interrupted (h : source.Delivers bs)
    (hr : source.read room = (.interrupted, source')) : source'.Delivers bs := by
  cases h with
  | ended => cases hr
  | interrupted h =>
    cases hr
    exact h
  | data _ _ =>
    simp only [read] at hr
    split at hr <;> cases hr

theorem Delivers.not_failed (h : source.Delivers bs) {text : String} :
    source.read room ≠ (.failed text, source') := by
  intro hr
  cases h with
  | ended => cases hr
  | interrupted _ => cases hr
  | data _ _ =>
    simp only [read] at hr
    split at hr <;> cases hr

theorem Delivers.of_data (h : source.Delivers bs) (hroom : 0 < room) {piece : Bytes}
    (hr : source.read room = (.data piece, source')) :
    ∃ more, bs = piece ++ more ∧ source'.Delivers more ∧ (piece = [] → bs = []) := by
  cases h with
  | ended =>
    cases hr
    exact ⟨[], rfl, .ended, fun _ => rfl⟩
  | interrupted _ => cases hr
  | @data rest all more nonempty h =>
    simp only [read] at hr
    split at hr
    · cases hr
      exact ⟨more, rfl, h, fun hz => absurd hz nonempty⟩
    · rename_i hlong
      cases hr
      have hrest : all.drop room ≠ [] := by
        rw [Ne, List.drop_eq_nil_iff]
        exact hlong
      refine ⟨all.drop room ++ more, ?_, .data hrest h, fun hz => ?_⟩
      · rw [← List.append_assoc, List.take_append_drop]
      · rcases List.take_eq_nil_iff.1 hz with hz | hz
        · exact absurd hz (Nat.ne_of_gt hroom)
        · exact absurd hz nonempty

end Read

end Source

namespace PacketReader

/-- The outcomes of a number of reads, one after the other. -/
def reads (r : PacketReader Parser) : Nat → List (Except Error (Option Packet))
  | 0 => []
  | count + 1 => r.next.outcome :: reads r.next.reader count

/-- A reader has some packets to hand out, and nothing but them: those that wait, and those that come
with what its parser holds and what its source delivers. -/
inductive Owes (t : PacketType) : PacketReader Parser → List Packet → Prop
  | intro {source : Source} {held coming : Bytes} {chunkSize : Nat} {pending later : List Packet}
      (waits : Parser.Waits t held) (delivers : source.Delivers coming)
      (framed : t.Framed later (held ++ coming)) :
      Owes t { source, parser := Parser.unbounded t held, chunkSize, pending } (pending ++ later)

variable {t : PacketType} {r : PacketReader Parser} {packets : List Packet}

private theorem takeIn_eq {source : Source} {chunk : Bytes} {parser : Parser} {done : List Packet}
    (h : (ChunkParser.transform r.parser chunk collect []).result = (parser, done, .ok ())) :
    (r.takeIn source chunk).1 = { r with source, parser, pending := done, heldError := none } := by
  have hparser := congrArg (fun result => result.1) h
  have hdone := congrArg (fun result => result.2.1) h
  have houtcome := congrArg (fun result => result.2.2) h
  simp only [Step.result] at hparser hdone houtcome
  simp only [takeIn, hparser, hdone, houtcome]

theorem Owes.takeIn (ht : t.reader.ItemsTakeBytes) (h : Owes t r packets) (hp : r.pending = [])
    {source : Source} {chunk : Bytes} (hr : r.source.read r.room = (.data chunk, source)) :
    Owes t (r.takeIn source chunk).1 packets := by
  cases h with
  | @intro _ held _ _ _ _ _ delivers framed =>
    cases hp
    obtain ⟨more, rfl, hmore, _⟩ := delivers.of_data (room_pos _) hr
    obtain ⟨done, todo, rest, rfl, htodo, hwaits, hdrain⟩ :=
      Parser.drain_of_framed ht framed (List.append_assoc held chunk more) []
    rw [takeIn_eq hdrain]
    exact .intro hwaits hmore htodo

theorem Owes.next (ht : t.reader.ItemsTakeBytes) (h : Owes t r packets) :
    r.next.outcome = .ok packets.head? ∧ Owes t r.next.reader packets.tail := by
  fun_induction PacketReader.next r with
  | case1 r packet pending hp =>
    cases h with
    | intro waits delivers framed =>
      cases hp
      exact ⟨rfl, .intro waits delivers framed⟩
  | case2 r e he hp =>
    cases h
    cases he
  | case3 r he hp source hr ih =>
    cases h with
    | intro waits delivers framed => exact ih (.intro waits (delivers.of_interrupted hr) framed)
  | case4 r he hp text source hr =>
    cases h with
    | intro _ delivers _ => exact absurd hr delivers.not_failed
  | case5 r he hp source hr r' =>
    -- At the end of the source the parser waits with nothing but whole frames: with nothing.
    cases h with
    | intro waits delivers framed =>
      cases hp
      obtain ⟨more, hcoming, hmore, hended⟩ := delivers.of_data (room_pos _) hr
      cases hended rfl
      rw [List.append_nil] at framed
      obtain ⟨rfl, rfl⟩ := Parser.eq_nil_of_waits framed waits
      exact ⟨rfl, .intro waits hmore (hcoming ▸ .nil)⟩
  | case6 r he hp b bs source hr taken delivery ih => exact ih (h.takeIn ht hp hr)

/-- A reader hands out all packets that it owes, and nothing after them. -/
theorem Owes.reads (ht : t.reader.ItemsTakeBytes) (h : Owes t r packets) (more : Nat) :
    r.reads (packets.length + more) =
      (packets.map fun packet => .ok (some packet)) ++ List.replicate more (.ok none) := by
  induction packets generalizing r with
  | nil =>
    rw [List.length_nil, Nat.zero_add, List.map_nil, List.nil_append]
    induction more generalizing r with
    | zero => rfl
    | succ more ih =>
      obtain ⟨houtcome, hnext⟩ := h.next ht
      rw [PacketReader.reads, houtcome, ih hnext]
      rfl
  | cons packet rest ih =>
    obtain ⟨houtcome, hnext⟩ := h.next ht
    rw [List.length_cons, Nat.add_right_comm, PacketReader.reads, houtcome, ih hnext]
    rfl

end PacketReader

/-- A write that accepts some bytes or is to be tried again. -/
def WriteItem.Progresses : WriteItem → Prop
  | .accept count => 0 < count
  | .interrupted => True
  | .failed _ => False

/-- Every write to a sink accepts some bytes or is to be tried again. -/
def Sink.Progresses (sink : Sink) : Prop :=
  ∀ item ∈ sink.writes, item.Progresses

theorem Sink.accept_of_progresses {writes : List WriteItem}
    (h : ∀ item ∈ writes, item.Progresses) (bs : Bytes) :
    ∃ left, (∀ item ∈ left, item.Progresses) ∧ accept writes bs = (bs, left, .ok ()) := by
  fun_induction accept writes bs with
  | case1 writes => exact ⟨writes, h, rfl⟩
  | case2 bs _ => exact ⟨[], h, rfl⟩
  | case3 writes bs _ ih => exact ih fun item hm => h item (List.mem_cons_of_mem _ hm)
  | case4 text writes bs _ => exact (h _ List.mem_cons_self).elim
  | case5 writes bs _ => exact absurd (h _ List.mem_cons_self) (Nat.lt_irrefl 0)
  | case6 count writes bs _ accepted rest hrest ih =>
    obtain ⟨left, hleft, ha⟩ := ih fun item hm => h item (List.mem_cons_of_mem _ hm)
    cases hrest.symm.trans ha
    exact ⟨left, hleft, by rw [List.take_append_drop]⟩

namespace PacketWriter

/-- Writes values in order, up to the first that fails. -/
def writeEach (w : PacketWriter) : List Value → PacketWriter × Except Error Unit
  | [] => (w, .ok ())
  | value :: rest =>
    match w.write value with
    | (w, .error e) => (w, .error e)
    | (w, .ok ()) => writeEach w rest

variable {t : PacketType}

theorem write_of_progresses {sink : Sink} (hs : sink.Progresses) {value : Value} {bs : Bytes}
    (he : t.encode value = .ok bs) :
    ∃ sink' : Sink, sink'.Progresses ∧ sink'.content = sink.content ++ bs ∧
      (⟨⟨t⟩, sink⟩ : PacketWriter).write value = (⟨⟨t⟩, sink'⟩, .ok ()) := by
  obtain ⟨left, hleft, ha⟩ := Sink.accept_of_progresses hs bs
  have hserialize : (⟨t⟩ : Serializer).serialize value = .ok bs := serialize_of_encode he
  refine ⟨{ sink with content := sink.content ++ bs, writes := left }, hleft, rfl, ?_⟩
  simp only [write, hserialize, Sink.writeAll, ha]
  rfl

theorem writeEach_of_progresses {values : List Value} {encodings : List Bytes}
    (he : List.Forall₂ (fun value bs => t.encode value = .ok bs) values encodings) {sink : Sink}
    (hs : sink.Progresses) :
    ∃ sink' : Sink, sink'.content = sink.content ++ encodings.flatten ∧
      (⟨⟨t⟩, sink⟩ : PacketWriter).writeEach values = (⟨⟨t⟩, sink'⟩, .ok ()) := by
  induction he generalizing sink with
  | nil => exact ⟨sink, (List.append_nil _).symm, rfl⟩
  | cons head _ ih =>
    obtain ⟨sink₁, hs₁, hcontent₁, hwrite⟩ := write_of_progresses hs head
    obtain ⟨sink₂, hcontent₂, heach⟩ := ih hs₁
    refine ⟨sink₂, ?_, ?_⟩
    · rw [hcontent₂, hcontent₁, List.flatten_cons, List.append_assoc]
    · rw [writeEach, hwrite]
      exact heach

end PacketWriter

namespace Codec

theorem frames_of_decode {c : Codec} (hw : c.Everywhere WellBuilt) (hc : c.Everywhere Recodable)
    {buf : Bytes} {packet : Packet} (hp : (PacketType.ofCodec c).decode buf = .ok packet)
    (hne : (PacketType.ofCodec c).encode packet.data ≠ .ok []) :
    ∃ bs, (PacketType.ofCodec c).encode packet.data = .ok bs ∧
      (PacketType.ofCodec c).Frames ⟨packet.data, bs.length⟩ bs := by
  obtain ⟨d, hd, hp⟩ := Except.bind_eq_ok.1 hp
  cases hp
  obtain ⟨bs, hwrites, _, hback⟩ := recodesIn_of_decode hc (Scope.Grows.refl []) hd
  have hencode := PacketType.encode_ofCodec hw hwrites
  refine ⟨bs, hencode, ?_, rfl, fun more => ?_⟩
  · rintro rfl
    exact hne hencode
  · exact Except.bind_eq_ok.2 ⟨_, hback [] more (Nat.le_refl 0), rfl⟩

/-- The encodings of values that were decoded, one behind the other, are a framed stream. -/
theorem framed_of_decode {c : Codec} (hw : c.Everywhere WellBuilt) (hc : c.Everywhere Recodable)
    {values : List Value}
    (hvalues : ∀ value ∈ values,
      (∃ buf size, (PacketType.ofCodec c).decode buf = .ok ⟨value, size⟩) ∧
        (PacketType.ofCodec c).encode value ≠ .ok []) :
    ∃ encodings,
      List.Forall₂ (fun value bs => (PacketType.ofCodec c).encode value = .ok bs) values encodings ∧
      (PacketType.ofCodec c).Framed
        (List.zipWith (fun value bs => ⟨value, bs.length⟩) values encodings) encodings.flatten := by
  induction values with
  | nil => exact ⟨[], .nil, .nil⟩
  | cons value rest ih =>
    obtain ⟨⟨buf, size, hp⟩, hne⟩ := hvalues value List.mem_cons_self
    obtain ⟨bs, hencode, hframes⟩ := frames_of_decode hw hc hp hne
    obtain ⟨encodings, hrest, hframed⟩ := ih fun v hm => hvalues v (List.mem_cons_of_mem _ hm)
    exact ⟨bs :: encodings, .cons hencode hrest, .cons hframes hframed⟩

/-- Values that were decoded, and are not encoded by nothing, are read back from what they were written
to. They are written to a sink that goes on accepting, and read from a source that delivers what the
sink holds, however either divides it. -/
theorem Compiled.reads_of_writeEach {c : Codec} (h : c.Compiled) (hf : c.FloatFree)
    (hi : c.ItemsTakeBytes) {values : List Value}
    (hvalues : ∀ value ∈ values,
      (∃ buf size, (PacketType.ofCodec c).decode buf = .ok ⟨value, size⟩) ∧
        (PacketType.ofCodec c).encode value ≠ .ok [])
    {sink : Sink} (hempty : sink.content = []) (hs : sink.Progresses) :
    ∃ encodings written,
      List.Forall₂ (fun value bs => (PacketType.ofCodec c).encode value = .ok bs) values encodings ∧
      (⟨⟨.ofCodec c⟩, sink⟩ : PacketWriter).writeEach values = (⟨⟨.ofCodec c⟩, written⟩, .ok ()) ∧
      written.content = encodings.flatten ∧
      ∀ (source : Source) (chunkSize more : Nat), source.Delivers written.content →
        PacketReader.reads { source, parser := { packetType := .ofCodec c }, chunkSize }
            (values.length + more) =
          ((List.zipWith (fun value bs => ⟨value, bs.length⟩) values encodings).map
            fun packet => .ok (some packet)) ++ List.replicate more (.ok none) := by
  have hc : c.Everywhere Recodable := (h.wellBuilt.and hi).and hf
  obtain ⟨encodings, hencode, hframed⟩ := framed_of_decode h.wellBuilt hc hvalues
  obtain ⟨written, hcontent, hwrite⟩ := PacketWriter.writeEach_of_progresses hencode hs
  rw [hempty, List.nil_append] at hcontent
  refine ⟨encodings, written, hencode, hwrite, hcontent, fun source chunkSize more hsource => ?_⟩
  have howes : PacketReader.Owes (.ofCodec c)
      { source, parser := { packetType := .ofCodec c }, chunkSize }
      (List.zipWith (fun value bs => ⟨value, bs.length⟩) values encodings) :=
    .intro rfl hsource (hcontent ▸ hframed)
  have hlength : (List.zipWith (fun value bs => (⟨value, bs.length⟩ : Packet)) values
      encodings).length = values.length := by
    rw [List.length_zipWith, ← hencode.length_eq, Nat.min_self]
  rw [← hlength]
  exact howes.reads hi more

theorem message_reads_of_writeEach :
    message.Compiled ∧ message.FloatFree ∧ message.ItemsTakeBytes ∧
      ∃ written, (⟨⟨.ofCodec message⟩, { writes := [.accept 1, .interrupted, .accept 4] }⟩ :
          PacketWriter).writeEach
            [.record [("kind", .uint 2), ("names", .array [.string "a"]), ("body", .int (-1))],
              .record [("kind", .uint 1), ("names", .array []), ("body", .uint 513)]] =
          (⟨⟨.ofCodec message⟩, written⟩, .ok ()) ∧
        written.content = [2, 1, 1, 97, 1, 255, 255, 1, 0, 2, 1] ∧
        PacketReader.reads
            { source := [.data [2, 1, 1], .interrupted, .data [97, 1, 255, 255, 1, 0], .data [2, 1],
                .interrupted],
              parser := { packetType := .ofCodec message }, chunkSize := 4 } 3 =
          [.ok (some ⟨.record [("kind", .uint 2), ("names", .array [.string "a"]),
              ("body", .int (-1))], 7⟩),
            .ok (some ⟨.record [("kind", .uint 1), ("names", .array []), ("body", .uint 513)], 4⟩),
            .ok none] := by
  have hvalues : ∀ value ∈ [Value.record [("kind", .uint 2), ("names", .array [.string "a"]),
        ("body", .int (-1))],
      .record [("kind", .uint 1), ("names", .array []), ("body", .uint 513)]],
      (∃ buf size, (PacketType.ofCodec message).decode buf = .ok ⟨value, size⟩) ∧
        (PacketType.ofCodec message).encode value ≠ .ok [] := by
    intro value hm
    simp only [List.mem_cons, List.not_mem_nil, or_false] at hm
    rcases hm with rfl | rfl
    · exact ⟨⟨[2, 129, 0, 1, 97, 7, 255, 255], 8, rfl⟩, fun h => nomatch h⟩
    · exact ⟨⟨[1, 0, 2, 1], 4, rfl⟩, fun h => nomatch h⟩
  have hsink : Sink.Progresses { writes := [.accept 1, .interrupted, .accept 4] } := by
    simp [Sink.Progresses, WriteItem.Progresses]
  obtain ⟨encodings, written, hencode, hwrite, hcontent, hreads⟩ := Compiled.reads_of_writeEach
    message_compiled message_floatFree message_itemsTakeBytes hvalues rfl hsink
  have hencodings : encodings = [[2, 1, 1, 97, 1, 255, 255], [1, 0, 2, 1]] := by
    cases hencode with
    | cons hfirst hrest =>
      cases hrest with
      | cons hsecond hnil =>
        cases hnil
        cases hfirst
        cases hsecond
        rfl
  subst hencodings
  refine ⟨message_compiled, message_floatFree, message_itemsTakeBytes, written, hwrite, hcontent, ?_⟩
  refine hreads _ 4 1 ?_
  rw [hcontent]
  exact .data (by decide) (.interrupted (.data (by decide) (.data (by decide) (.interrupted .ended))))

end Codec

end PacketCodec
