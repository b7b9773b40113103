import PacketCodec.Proofs.Codec.Placement

/-!
# Appending encodings

A serializer that appends to an output adds what encoding the value afresh returns, or adds nothing and says why.
It may as well encode into the output itself, which it extends beforehand and cuts back after an error: encoding
leaves what is in front of it alone, so nothing of a rejected value stays. An output to which values are appended
one after the other therefore ends in the encodings of those that were accepted.
-/

namespace PacketCodec

namespace PacketType

/-- Extends an output by the size of a value and writes the value there. The outcome is that size; after an
error the output is as writing has left it. -/
def extend (t : PacketType) (value : Value) (out : Bytes) : Except EncodeError Nat × Bytes :=
  match t.measure value with
  | .error e => (.error e, out)
  | .ok size =>
    match (t.writer.write [] value out.length).run.run (out ++ List.replicate size 0) with
    | (.error e, extended) => (.error e, extended)
    | (.ok stop, extended) =>
      if stop = out.length + size then (.ok size, extended)
      else (.error (.here (.sizeMismatch (stop - out.length) size)), extended)

theorem appendTo_eq_encode {c : Codec} (h : c.Everywhere Codec.WellBuilt) (value : Value) (out : Bytes) :
    (ofCodec c).appendTo value out = ((ofCodec c).encode value).map (out ++ ·) := by
  rw [encode, appendTo_ofCodec h, appendTo_ofCodec h]
  cases c.measure [] value <;> rfl

end PacketType

namespace Serializer

/-- Appends the encoding of a value by extending the output, which is cut back to what it was after an error. -/
def serializeInPlace (s : Serializer) (value : Value) (out : Bytes) : Bytes × Except Error Nat :=
  match s.packetType.extend value out with
  | (.ok size, extended) => (extended, .ok size)
  | (.error e, extended) => (extended.take out.length, .error (.unserializable value (.encode e)))

/-- Nothing is lost of an output that is cut back, whatever has been written behind it. -/
theorem serializeInPlace_eq (s : Serializer) (value : Value) (out : Bytes) :
    s.serializeInPlace value out = s.serializeInto value out := by
  obtain ⟨t⟩ := s
  simp only [serializeInPlace, serializeInto, PacketType.extend, PacketType.appendTo]
  cases t.measure value with
  | error e => exact congrArg (fun out => (out, _)) List.take_length
  | ok size =>
    have hwrite := t.writer.emit_placedBy_write [] value (out ++ List.replicate size 0) out.length
    obtain ⟨bs, hcovers, hdest⟩ :=
      (t.writer.emit [] value).exists_dest_place (out ++ List.replicate size 0) out.length
    have hfront := Bytes.take_overwrite hcovers
    have hlength := Bytes.length_overwrite hcovers
    rw [← hdest, List.take_left] at hfront
    rw [← hdest, List.length_append, List.length_replicate] at hlength
    simp only [hwrite, Codec.encode, bind, Except.bind]
    cases hp : (t.writer.emit [] value).place (out ++ List.replicate size 0) out.length with
    | mk extended outcome =>
      rw [hp] at hfront hlength
      cases outcome with
      | error e => exact congrArg (fun out => (out, _)) hfront
      | ok stop =>
        by_cases hstop : stop = out.length + size
        · have hsize : extended.length - out.length = size :=
            (congrArg (· - out.length) hlength).trans (Nat.add_sub_cancel_left _ _)
          simp only [if_pos hstop]
          exact congrArg (fun n => (extended, Except.ok n)) hsize.symm
        · simp only [if_neg hstop]
          exact congrArg (fun out => (out, _)) hfront

theorem serializeInto_eq {c : Codec} (h : c.Everywhere Codec.WellBuilt) (value : Value) (out : Bytes) :
    (⟨.ofCodec c⟩ : Serializer).serializeInto value out =
      match (PacketType.ofCodec c).encode value with
      | .ok bs => (out ++ bs, .ok bs.length)
      | .error e => (out, .error (.unserializable value (.encode e))) := by
  rw [serializeInto, PacketType.appendTo_eq_encode h]
  cases (PacketType.ofCodec c).encode value with
  | error e => rfl
  | ok bs =>
    have hsize : (out ++ bs).length - out.length = bs.length := by
      rw [List.length_append]
      omega
    exact congrArg (fun n => (out ++ bs, Except.ok n)) hsize

/-- Appends values to an output one after the other, whatever becomes of each. -/
def serializeEach (s : Serializer) : List Value → Bytes → Bytes × List (Except Error Nat)
  | [], out => (out, [])
  | value :: rest, out =>
    let (out, outcome) := s.serializeInto value out
    let (out, outcomes) := s.serializeEach rest out
    (out, outcome :: outcomes)

/-- The encodings of those among some values that a packet type accepts. -/
def accepted (t : PacketType) (values : List Value) : List Bytes :=
  values.filterMap fun value => (t.encode value).toOption

theorem serializeEach_eq {c : Codec} (h : c.Everywhere Codec.WellBuilt) (values : List Value) (out : Bytes) :
    (⟨.ofCodec c⟩ : Serializer).serializeEach values out =
      (out ++ (accepted (.ofCodec c) values).flatten,
        values.map fun value => ((⟨.ofCodec c⟩ : Serializer).serializeInto value []).2) := by
  induction values generalizing out with
  | nil => exact congrArg (fun out => (out, [])) (List.append_nil out).symm
  | cons value rest ih =>
    simp only [serializeEach, serializeInto_eq h, ih, accepted, List.filterMap_cons, List.map_cons]
    cases (PacketType.ofCodec c).encode value with
    | error e => rfl
    | ok bs => simp only [Except.toOption, List.flatten_cons, List.append_assoc]

/-- A value is appended exactly when it is encoded afresh, and then as the same bytes; otherwise the output stays
as it was, and the error holds the value and what refuses it. The same is so when the output itself is extended
and, after an error, cut back. After any number of calls an output ends in the encodings of the values that were
accepted, one behind the other. -/
theorem appends_or_keeps {c : Codec} (h : c.Compiled) :
    (∀ value out, (⟨.ofCodec c⟩ : Serializer).serializeInto value out =
      match (PacketType.ofCodec c).encode value with
      | .ok bs => (out ++ bs, .ok bs.length)
      | .error e => (out, .error (.unserializable value (.encode e)))) ∧
    (∀ value out, (⟨.ofCodec c⟩ : Serializer).serializeInPlace value out =
      (⟨.ofCodec c⟩ : Serializer).serializeInto value out) ∧
    ∀ values out, ((⟨.ofCodec c⟩ : Serializer).serializeEach values out).1 =
      out ++ (accepted (.ofCodec c) values).flatten := by
  refine ⟨serializeInto_eq h.wellBuilt, serializeInPlace_eq _, fun values out => ?_⟩
  rw [serializeEach_eq h.wellBuilt]

theorem message_appends_or_keeps :
    Codec.message.Compiled ∧
      (⟨.ofCodec .message⟩ : Serializer).serializeInto (Codec.messageTo [.uint 5]) [9, 9] =
        ([9, 9], .error (.unserializable (Codec.messageTo [.uint 5])
          (.encode ⟨["names"], .expectedString .integer⟩))) ∧
      ((⟨.ofCodec .message⟩ : Serializer).serializeEach
          [Codec.messageTo [.string "ab"], Codec.messageTo [.uint 5], Codec.messageTo []] [9, 9]).1 =
        [9, 9] ++ [1, 1, 2, 97, 98, 0, 7] ++ [1, 0, 0, 7] := by
  obtain ⟨hinto, _, heach⟩ := appends_or_keeps Codec.message_compiled
  refine ⟨Codec.message_compiled, ?_, ?_⟩
  · exact hinto (Codec.messageTo [.uint 5]) [9, 9]
  · rw [heach]
    rfl

end Serializer

end PacketCodec
