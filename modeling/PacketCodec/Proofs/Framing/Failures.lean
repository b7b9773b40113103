import PacketCodec.Framing.WholePacketParser
import PacketCodec.Proofs.Codec.ErrorKinds
import PacketCodec.Proofs.Codec.Failures
import PacketCodec.Proofs.Framing.Appending
import PacketCodec.Proofs.Framing.Calls

/-!
# Failing steps

Framing decides by the kind of an error: a parser waits for more bytes after a partial read, and discards what it
holds after anything else. Here it decides on the errors that decoding raises. As these are of the kinds that
they should be, parsers discard only for a fault of decoding or for too many bytes, and serializers reject a value only
for a fault of encoding.
-/

namespace PacketCodec

namespace Error

/-- An error that decoding may raise. -/
def OfDecoding (e : Error) : Prop :=
  (∃ needed available, e = .partialRead needed available) ∨ ∃ cause, e = .decode cause

/-- An error that measuring and encoding may raise. -/
def OfEncoding (e : Error) : Prop :=
  ∃ cause, e = .encode cause

/-- An error that a parser with some limit may discard some bytes for, which it then carries. -/
def OfDiscarding (limit : Option Nat) (pending : Bytes) (e : Error) : Prop :=
  ∃ cause, e = .discarded pending cause ∧
    ((∃ fault, cause = .decode fault) ∨
      ∃ most, limit = some most ∧ cause = .bufferOverflow pending.length most)

/-- An error seen from outside some fields, the outermost first. -/
def inFields (path : List String) (e : Error) : Error :=
  path.foldr inField e

theorem isPartialRead_inFields (path : List String) (e : Error) :
    (e.inFields path).isPartialRead = e.isPartialRead := by
  induction path with
  | nil => rfl
  | cons name path ih =>
    rw [← ih]
    show ((e.inFields path).inField name).isPartialRead = _
    cases e.inFields path <;> rfl

theorem inFields_ofRead (path : List String) (e : ReadError) :
    (ofRead e).inFields path = ofRead (e.along path) := by
  induction path with
  | nil => rfl
  | cons name path ih =>
    show ((ofRead e).inFields path).inField name = _
    rw [ih, inField_ofRead, ReadError.along_cons]

theorem ofDecoding_of_mapError {α : Type} {x : Except ReadError α} {e : Error}
    (h : x.mapError ofRead = .error e) : e.OfDecoding := by
  obtain ⟨cause, _, rfl⟩ := Except.mapError_eq_error.1 h
  cases cause with
  | incomplete needed available => exact .inl ⟨needed, available, rfl⟩
  | invalid fault => exact .inr ⟨fault, rfl⟩

theorem ofEncoding_of_mapError {α : Type} {x : Except EncodeError α} {e : Error}
    (h : x.mapError Error.encode = .error e) : e.OfEncoding := by
  obtain ⟨cause, _, rfl⟩ := Except.mapError_eq_error.1 h
  exact ⟨cause, rfl⟩

end Error

open Error

namespace Decoding

variable {buf : Bytes} {d d' : Decoding} {path : List String} {e : Error}

/-- What decoding something raises or comes to. -/
def raised (buf : Bytes) (d : Decoding) : Except Error Decoded :=
  d.codec.decodeRaising buf d.scope d.offset

theorem raised_eq (buf : Bytes) (d : Decoding) : d.raised buf = (d.outcome buf).mapError ofRead :=
  d.codec.decodeRaising_eq buf d.scope d.offset

theorem Reaches.raised_eq_error (h : Reaches buf d path d') (he : d'.raised buf = .error e) :
    d.raised buf = .error (e.inFields path) := by
  rw [raised_eq] at he
  obtain ⟨cause, hcause, rfl⟩ := Except.mapError_eq_error.1 he
  rw [raised_eq, h.outcome_eq_error hcause, inFields_ofRead]
  rfl

/-- Every error that is raised comes from something at some depth, none of whose parts fails. -/
theorem exists_origin_of_raised (h : d.raised buf = .error e) :
    ∃ path origin cause, Reaches buf d path origin ∧ FailsItself buf origin cause ∧
      origin.raised buf = .error (ofRead cause) ∧ e = (ofRead cause).inFields path := by
  rw [raised_eq] at h
  obtain ⟨e', he', rfl⟩ := Except.mapError_eq_error.1 h
  obtain ⟨path, origin, cause, hreaches, hfails, rfl⟩ := exists_origin he'
  refine ⟨path, origin, cause, hreaches, hfails, ?_, (inFields_ofRead path cause).symm⟩
  rw [raised_eq, hfails.outcome]
  rfl

end Decoding

namespace PacketType

/-- Decodes a packet and raises an error where one comes up. -/
def decodeRaising (t : PacketType) (buf : Bytes) : Except Error Packet := do
  let decoded ← t.reader.decodeRaising buf [] 0
  return ⟨decoded.value, decoded.size⟩

theorem decodeRaising_eq (t : PacketType) (buf : Bytes) :
    t.decodeRaising buf = (t.decode buf).mapError ofRead := by
  rw [decodeRaising, decode, Except.mapError_bind, Codec.decodeRaising_eq]
  rfl

/-- Extends an output by the size of a value and writes the value there, raising an error where one comes up. -/
def extendRaising (t : PacketType) (value : Value) (out : Bytes) : Except Error Nat × Bytes :=
  match t.sizer.measureRaising [] value with
  | .error e => (.error e, out)
  | .ok size =>
    match (t.writer.writeRaising [] value out.length).run.run (out ++ List.replicate size 0) with
    | (.error e, extended) => (.error e, extended)
    | (.ok stop, extended) =>
      if stop = out.length + size then (.ok size, extended)
      else (.error (ofEncodeFault (.sizeMismatch (stop - out.length) size)), extended)

theorem extendRaising_eq (t : PacketType) (value : Value) (out : Bytes) :
    t.extendRaising value out =
      ((t.extend value out).1.mapError Error.encode, (t.extend value out).2) := by
  simp only [extendRaising, extend, Codec.measureRaising_eq, Codec.writeRaising_eq,
    ExceptT.run_run_adapt, measure]
  cases t.sizer.measure [] value with
  | error e => rfl
  | ok size =>
    simp only [Except.mapError]
    cases (t.writer.write [] value out.length).run.run (out ++ List.replicate size 0) with
    | mk outcome extended =>
      cases outcome with
      | error e => rfl
      | ok stop =>
        simp only
        split <;> rfl

end PacketType

namespace Parser

variable {σ : Type}

/-- Asks for a packet, and decides on the error that decoding raises by its kind. -/
def nextRaising (p : Parser) : Pull :=
  if p.pending.isEmpty then ⟨p, .ok none, []⟩
  else
    match p.packetType.decodeRaising p.pending with
    | .ok packet =>
      if packet.size = 0 then p.discard (ofDecodeFault .emptyPacket)
      else
        let rest := p.pending.drop packet.size
        { parser := { p with pending := rest }
          outcome := .ok (some packet)
          events := [.packetDecoded packet.size rest.length] }
    | .error e =>
      if e.isPartialRead then
        match p.overflow? with
        | some overflow => p.discard overflow
        | none => ⟨p, .ok none, []⟩
      else p.discard e

theorem nextRaising_eq (p : Parser) : p.nextRaising = p.next := by
  rw [nextRaising, next, PacketType.decodeRaising_eq]
  split
  · rfl
  · cases p.packetType.decode p.pending with
    | ok packet => rfl
    | error e => cases e <;> rfl

theorem eq_of_overflow? {p : Parser} {e : Error} (h : p.overflow? = some e) :
    ∃ most, p.limit = some most ∧ e = .bufferOverflow p.pending.length most := by
  unfold overflow? at h
  split at h
  · rename_i most hlimit
    split at h
    · cases h
      exact ⟨most, hlimit, rfl⟩
    · cases h
  · cases h

theorem ofDiscarding_of_next {p : Parser} {e : Error} (h : p.next.outcome = .error e) :
    e.OfDiscarding p.limit p.pending := by
  unfold next at h
  split at h
  · cases h
  · split at h
    · split at h
      · cases h
        exact ⟨_, rfl, .inl ⟨_, rfl⟩⟩
      · cases h
    · split at h
      · rename_i overflow ho
        cases h
        exact ⟨_, rfl, .inr (eq_of_overflow? ho)⟩
      · cases h
    · cases h
      exact ⟨_, rfl, .inl ⟨_, rfl⟩⟩

theorem Drains.of_error {consumer : Consumer σ} (hc : ∀ packet state, (consumer packet state).1 = .ok ())
    {p p' : Parser} {state state' : σ} {packets : List Packet} {e : Error}
    (h : Drains consumer p state packets p' state' (.error e)) :
    ∃ rest, PacketType.Takes p.packetType p.pending packets rest ∧
      (Parser.mk p.packetType p.limit rest).next.outcome = .error e ∧ p'.pending = [] := by
  generalize ho : (.error e : Except Error Unit) = outcome at h
  induction h with
  | waits => cases ho
  | discards cause h =>
    cases ho
    exact ⟨_, .nil _, congrArg Pull.outcome h, rfl⟩
  | @refused p state _ packet _ _ _ hrefused =>
    have haccepts := hc packet state
    rw [hrefused] at haccepts
    cases haccepts
  | takes hd hz _ _ ih =>
    obtain ⟨rest, htakes, hnext, hpending⟩ := ih ho
    exact ⟨rest, .cons hd hz htakes, hnext, hpending⟩

theorem ofDiscarding_of_transform {consumer : Consumer σ}
    (hc : ∀ packet state, (consumer packet state).1 = .ok ()) {p : Parser} {chunk : Bytes} {state : σ}
    {e : Error} (h : (p.transform chunk consumer state).outcome = .error e) :
    (p.transform chunk consumer state).parser.pending = [] ∧
      ∃ rest, e.OfDiscarding p.limit rest ∧ p.packetType.Takes (p.pending ++ chunk)
        (p.transform chunk (noting consumer) (state, [])).consumer.2 rest := by
  obtain ⟨packets, p', state', outcome, hdrains⟩ := exists_drains consumer (p.feed chunk) state
  obtain ⟨hparser, houtcome, hpackets⟩ := Call.transform_of_drains hdrains
  have herror : outcome = .error e := houtcome.symm.trans h
  subst herror
  obtain ⟨rest, htakes, hnext, hpending⟩ := hdrains.of_error hc
  rw [← hpackets] at htakes
  exact ⟨(congrArg pending hparser).trans hpending, rest, ofDiscarding_of_next hnext, htakes⟩

end Parser

namespace WholePacketParser

/-- The packet of a chunk, or the error that decoding raises. -/
def parseRaising (p : WholePacketParser) (chunk : Bytes) : Except Error Packet × List Event :=
  match p.packetType.decodeRaising chunk with
  | .ok packet =>
    if packet.size = chunk.length then (.ok packet, [])
    else (.ok packet, [.sizeMismatch chunk packet.size packet.data])
  | .error e => (.error e, [])

theorem parseRaising_eq (p : WholePacketParser) (chunk : Bytes) :
    p.parseRaising chunk = p.parse chunk := by
  rw [parseRaising, parse, PacketType.decodeRaising_eq]
  cases p.packetType.decode chunk <;> rfl

theorem ofDecoding_of_parse {p : WholePacketParser} {chunk : Bytes} {e : Error}
    (h : (p.parse chunk).1 = .error e) : e.OfDecoding := by
  unfold parse at h
  split at h
  · split at h <;> cases h
  · rename_i cause hd
    cases h
    have hraised : (p.packetType.decode chunk).mapError ofRead = .error (ofRead cause) := by
      rw [hd]
      rfl
    exact ofDecoding_of_mapError hraised

theorem ofDecoding_of_transform {σ : Type} {p : WholePacketParser} {chunk : Bytes}
    {consumer : Consumer σ} (hc : ∀ packet state, (consumer packet state).1 = .ok ()) {state : σ}
    {e : Error} (h : (p.transform chunk consumer state).outcome = .error e) : e.OfDecoding := by
  unfold transform at h
  cases hp : p.parse chunk with
  | mk outcome events =>
    cases outcome with
    | error cause =>
      rw [hp] at h
      cases h
      exact ofDecoding_of_parse (congrArg Prod.fst hp)
    | ok packet =>
      rw [hp] at h
      cases (hc packet state).symm.trans h

end WholePacketParser

namespace Serializer

/-- Appends the encoding of a value to an output, which is cut back after an error of whatever kind. -/
def serializeRaising (s : Serializer) (value : Value) (out : Bytes) : Bytes × Except Error Nat :=
  match s.packetType.extendRaising value out with
  | (.ok size, extended) => (extended, .ok size)
  | (.error source, extended) => (extended.take out.length, .error (.unserializable value source))

theorem serializeRaising_eq (s : Serializer) (value : Value) (out : Bytes) :
    s.serializeRaising value out = s.serializeInto value out := by
  rw [← serializeInPlace_eq, serializeRaising, serializeInPlace, PacketType.extendRaising_eq]
  cases s.packetType.extend value out with
  | mk outcome extended => cases outcome <;> rfl

theorem serializeInto_error {s : Serializer} {value : Value} {out : Bytes} {e : Error}
    (h : (s.serializeInto value out).2 = .error e) :
    ∃ cause, e = .unserializable value (.encode cause) := by
  unfold serializeInto at h
  split at h
  · cases h
  · cases h
    exact ⟨_, rfl⟩

theorem serialize_error {s : Serializer} {value : Value} {e : Error}
    (h : s.serialize value = .error e) : ∃ cause, e = .unserializable value (.encode cause) := by
  unfold serialize at h
  split at h
  · cases h
  · rename_i heq
    cases h
    exact serializeInto_error (congrArg Prod.snd heq)

end Serializer

/-- The errors of a codec are of the kinds that they should be. What it raises is what it fails with, decoding for
missing bytes or a fault in the bytes, measuring and writing for a fault of the value. An error of something that is
decoded at some depth comes out with the names of the fields put to it and of the same kind, and every error comes
from something at some depth that fails itself. -/
structure Codec.FailsInKind (c : Codec) : Prop where
  decode (buf : Bytes) (scope : Scope) (offset : Nat) :
    c.decodeRaising buf scope offset = (c.decode buf scope offset).mapError ofRead
  decode_kind (buf : Bytes) (scope : Scope) (offset : Nat) (e : Error)
    (h : c.decodeRaising buf scope offset = .error e) : e.OfDecoding
  measure (scope : Scope) (value : Value) :
    c.measureRaising scope value = (c.measure scope value).mapError Error.encode
  measure_kind (scope : Scope) (value : Value) (e : Error)
    (h : c.measureRaising scope value = .error e) : e.OfEncoding
  write (scope : Scope) (value : Value) (dest : Bytes) (offset : Nat) :
    (c.writeRaising scope value offset).run.run dest =
      ((c.encode scope value dest offset).outcome.mapError Error.encode,
        (c.encode scope value dest offset).dest)
  write_kind (scope : Scope) (value : Value) (dest : Bytes) (offset : Nat) (e : Error)
    (h : ((c.writeRaising scope value offset).run.run dest).1 = .error e) : e.OfEncoding
  outwards (buf : Bytes) (scope : Scope) (offset : Nat) (path : List String) (d : Decoding) (e : Error)
    (hr : Decoding.Reaches buf ⟨c, scope, offset⟩ path d) (he : d.raised buf = .error e) :
    c.decodeRaising buf scope offset = .error (e.inFields path) ∧
      (e.inFields path).isPartialRead = e.isPartialRead
  inwards (buf : Bytes) (scope : Scope) (offset : Nat) (e : Error)
    (h : c.decodeRaising buf scope offset = .error e) :
    ∃ path origin cause, Decoding.Reaches buf ⟨c, scope, offset⟩ path origin ∧
      Decoding.FailsItself buf origin cause ∧ origin.raised buf = .error (ofRead cause) ∧
      e = (ofRead cause).inFields path ∧ e.isPartialRead = (ofRead cause).isPartialRead

theorem Codec.failsInKind (c : Codec) : c.FailsInKind where
  decode := c.decodeRaising_eq
  decode_kind buf scope offset e h := by
    rw [c.decodeRaising_eq] at h
    exact ofDecoding_of_mapError h
  measure := c.measureRaising_eq
  measure_kind scope value e h := by
    rw [c.measureRaising_eq] at h
    exact ofEncoding_of_mapError h
  write scope value dest offset := by
    rw [c.writeRaising_eq, ExceptT.run_run_adapt, c.emit_placedBy_write scope value dest offset]
    rfl
  write_kind scope value dest offset e h := by
    rw [c.writeRaising_eq, ExceptT.run_run_adapt] at h
    exact ofEncoding_of_mapError h
  outwards buf scope offset path d e hr he :=
    ⟨hr.raised_eq_error he, isPartialRead_inFields path e⟩
  inwards buf scope offset e h := by
    obtain ⟨path, origin, cause, hreaches, hfails, hraised, rfl⟩ :=
      Decoding.exists_origin_of_raised (d := ⟨c, scope, offset⟩) h
    exact ⟨path, origin, cause, hreaches, hfails, hraised, rfl, isPartialRead_inFields path _⟩

/-- All errors are of the kinds that they should be. A parser that is asked for a packet discards what it holds
for a fault of decoding or because it holds too much, and carries it all; so does one that takes in a chunk for a
consumer that never fails, of what stands behind the packets that it has handed over. Packets that are chunks fail
as decoding does, and a serializer hands back the value that it rejects for a fault of encoding. -/
theorem PacketType.errors_in_kind (t : PacketType) :
    (t.reader.FailsInKind ∧ t.writer.FailsInKind ∧ t.sizer.FailsInKind) ∧
    (∀ limit pending, (Parser.mk t limit pending).nextRaising = (Parser.mk t limit pending).next ∧
      ∀ e, (Parser.mk t limit pending).next.outcome = .error e → e.OfDiscarding limit pending) ∧
    (∀ (σ : Type) (consumer : Consumer σ), (∀ packet state, (consumer packet state).1 = .ok ()) →
      (∀ limit pending chunk state e,
        ((Parser.mk t limit pending).transform chunk consumer state).outcome = .error e →
        ((Parser.mk t limit pending).transform chunk consumer state).parser.pending = [] ∧
        ∃ rest, e.OfDiscarding limit rest ∧
          t.Takes (pending ++ chunk) ((Parser.mk t limit pending).transform chunk
            (Parser.noting consumer) (state, [])).consumer.2 rest) ∧
      ∀ chunk state e, ((WholePacketParser.mk t).transform chunk consumer state).outcome = .error e →
        e.OfDecoding) ∧
    (∀ chunk, (WholePacketParser.mk t).parseRaising chunk = (WholePacketParser.mk t).parse chunk ∧
      ∀ e, ((WholePacketParser.mk t).parse chunk).1 = .error e → e.OfDecoding) ∧
    (∀ value out, (Serializer.mk t).serializeRaising value out = (Serializer.mk t).serializeInto value out ∧
      ∀ e, ((Serializer.mk t).serializeInto value out).2 = .error e →
        ∃ cause, e = .unserializable value (.encode cause)) ∧
    ∀ value e, (Serializer.mk t).serialize value = .error e →
      ∃ cause, e = .unserializable value (.encode cause) := by
  refine ⟨⟨t.reader.failsInKind, t.writer.failsInKind, t.sizer.failsInKind⟩, ?_, ?_, ?_, ?_, ?_⟩
  · intro limit pending
    exact ⟨Parser.nextRaising_eq _, fun e h => Parser.ofDiscarding_of_next h⟩
  · intro σ consumer hc
    constructor
    · intro limit pending chunk state e h
      exact Parser.ofDiscarding_of_transform hc h
    · intro chunk state e h
      exact WholePacketParser.ofDecoding_of_transform hc h
  · intro chunk
    exact ⟨WholePacketParser.parseRaising_eq _ chunk, fun e h => WholePacketParser.ofDecoding_of_parse h⟩
  · intro value out
    exact ⟨Serializer.serializeRaising_eq _ value out, fun e h => Serializer.serializeInto_error h⟩
  · intro value e h
    exact Serializer.serialize_error h

theorem PacketType.message_errors_in_kind :
    Codec.message.decodeRaising [1, 1, 2, 97] [] 0 = .error (.partialRead 5 4) ∧
      (Parser.mk (.ofCodec .message) (some 9) [1, 1, 2, 97]).next.outcome = .ok none ∧
      (∃ e, (Parser.mk (.ofCodec .message) (some 9) [1, 1, 1, 255]).next.outcome = .error e ∧
        e.OfDiscarding (some 9) [1, 1, 1, 255]) ∧
      ∃ cause, (Serializer.mk (.ofCodec .message)).serialize (Codec.messageTo [.uint 5]) =
        .error (.unserializable (Codec.messageTo [.uint 5]) (.encode cause)) := by
  obtain ⟨_, hparser, _, _, _, hserializer⟩ := errors_in_kind (.ofCodec .message)
  refine ⟨rfl, rfl, ?_, ?_⟩
  · exact ⟨_, rfl, (hparser (some 9) [1, 1, 1, 255]).2 _ rfl⟩
  · obtain ⟨cause, hcause⟩ := hserializer (Codec.messageTo [.uint 5]) _ rfl
    exact ⟨cause, congrArg Except.error hcause⟩

end PacketCodec
