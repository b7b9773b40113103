import PacketCodec.Proofs.Except
import PacketCodec.Stream.PacketWriter

/-!
# What a sink holds

Values are written one after the other, whatever becomes of each. The sink then holds the encodings, in order:
all of one that was written, a strict part of one on which the sink failed, and nothing of a value that was
rejected. It makes no difference what the buffer of a writer still holds of earlier values.
-/

namespace PacketCodec

theorem Sink.accept_whole_or_part {writes left : List WriteItem} {bs accepted : Bytes}
    {outcome : Except IoFault Unit} (h : accept writes bs = (accepted, left, outcome)) :
    (outcome = .ok () ∧ accepted = bs) ∨
      ∃ fault, outcome = .error fault ∧ accepted <+: bs ∧ accepted ≠ bs := by
  fun_induction accept writes bs generalizing accepted left outcome with
  | case1 writes =>
    cases h
    exact .inl ⟨rfl, rfl⟩
  | case2 bs _ =>
    cases h
    exact .inl ⟨rfl, rfl⟩
  | case3 writes bs _ ih => exact ih h
  | case4 text writes bs hne =>
    cases h
    exact .inr ⟨_, rfl, List.nil_prefix, fun he => hne he.symm⟩
  | case5 writes bs hne =>
    cases h
    exact .inr ⟨_, rfl, List.nil_prefix, fun he => hne he.symm⟩
  | case6 count writes bs _ behind rest hrest ih =>
    cases h
    have hbs : bs.take (count + 1) ++ bs.drop (count + 1) = bs := List.take_append_drop _ _
    rcases ih hrest with ⟨hok, hbehind⟩ | ⟨fault, herror, hpart, hne⟩
    · exact .inl ⟨hok, by rw [hbehind, hbs]⟩
    · have hpart' := (List.prefix_append_right_inj (bs.take (count + 1))).2 hpart
      rw [hbs] at hpart'
      refine .inr ⟨fault, herror, hpart', fun he => hne ?_⟩
      exact List.append_cancel_left (he.trans hbs.symm)

section Writing

variable {σ τ : Type}

/-- Writes values one after the other, whatever becomes of each. -/
def allWritten (write : σ → Value → σ × Except Error Unit) :
    σ → List Value → σ × List (Except Error Unit)
  | w, [] => (w, [])
  | w, value :: rest =>
    let (w, outcome) := write w value
    let (w, outcomes) := allWritten write w rest
    (w, outcome :: outcomes)

theorem allWritten_seen {write : σ → Value → σ × Except Error Unit}
    {write' : τ → Value → τ × Except Error Unit} (see : σ → τ)
    (h : ∀ w value, write' (see w) value = (see (write w value).1, (write w value).2)) (w : σ)
    (values : List Value) :
    allWritten write' (see w) values =
      (see (allWritten write w values).1, (allWritten write w values).2) := by
  induction values generalizing w with
  | nil => rfl
  | cons value rest ih => simp only [allWritten, h, ih]

end Writing

namespace PacketWriter

/-- What a call to write a value adds to the sink, by how it ends. -/
inductive Adds (t : PacketType) (value : Value) : Except Error Unit → Bytes → Prop
  | whole {bs : Bytes} (h : t.encode value = .ok bs) : Adds t value (.ok ()) bs
  | part {bs accepted : Bytes} {fault : IoFault} (h : t.encode value = .ok bs)
      (hpart : accepted <+: bs) (hne : accepted ≠ bs) :
      Adds t value (.error (.io fault)) accepted
  | nothing {e : EncodeError} (h : t.encode value = .error e) :
      Adds t value (.error (.unserializable value (.encode e))) []

/-- What calls to write values, one after the other, add to the sink, by how each of them ends. -/
inductive AddsAll (t : PacketType) : List Value → List (Except Error Unit) → Bytes → Prop
  | nil : AddsAll t [] [] []
  | cons {value : Value} {values : List Value} {outcome : Except Error Unit}
      {outcomes : List (Except Error Unit)} {added rest : Bytes} (head : Adds t value outcome added)
      (tail : AddsAll t values outcomes rest) :
      AddsAll t (value :: values) (outcome :: outcomes) (added ++ rest)

def writeAll (w : PacketWriter) (values : List Value) : PacketWriter × List (Except Error Unit) :=
  allWritten write w values

theorem serialize_of_encode {t : PacketType} {value : Value} {outcome : Except EncodeError Bytes}
    (h : t.encode value = outcome) :
    (⟨t⟩ : Serializer).serialize value =
      outcome.mapError fun e => .unserializable value (.encode e) := by
  rw [PacketType.encode] at h
  simp only [Serializer.serialize, Serializer.serializeInto, h]
  cases outcome <;> rfl

theorem adds_of_write {w w' : PacketWriter} {value : Value} {outcome : Except Error Unit}
    (h : w.write value = (w', outcome)) :
    w'.serializer = w.serializer ∧
      ∃ added, Adds w.serializer.packetType value outcome added ∧
        w'.sink.content = w.sink.content ++ added := by
  obtain ⟨⟨t⟩, sink⟩ := w
  cases he : t.encode value with
  | error e =>
    have hserialize : (⟨t⟩ : Serializer).serialize value =
        .error (.unserializable value (.encode e)) := serialize_of_encode he
    rw [write, hserialize] at h
    cases h
    exact ⟨rfl, [], .nothing he, (List.append_nil _).symm⟩
  | ok bs =>
    have hserialize : (⟨t⟩ : Serializer).serialize value = .ok bs := serialize_of_encode he
    cases ha : Sink.accept sink.writes bs with
    | mk accepted rest =>
      obtain ⟨left, ended⟩ := rest
      have hwrite : sink.writeAll bs =
          ({ sink with content := sink.content ++ accepted, writes := left }, ended) := by
        rw [Sink.writeAll, ha]
      simp only [write, hserialize, hwrite] at h
      cases h
      refine ⟨rfl, accepted, ?_, rfl⟩
      rcases Sink.accept_whole_or_part ha with ⟨rfl, rfl⟩ | ⟨fault, rfl, hpart, hne⟩
      · exact .whole he
      · exact .part he hpart hne

theorem addsAll_of_writeAll (w : PacketWriter) (values : List Value) :
    ∃ added, AddsAll w.serializer.packetType values (w.writeAll values).2 added ∧
      (w.writeAll values).1.sink.content = w.sink.content ++ added := by
  induction values generalizing w with
  | nil => exact ⟨[], .nil, (List.append_nil _).symm⟩
  | cons value rest ih =>
    cases hw : w.write value with
    | mk w₁ outcome =>
      obtain ⟨hserializer, added, hadds, hcontent⟩ := adds_of_write hw
      obtain ⟨addedRest, hrest, hcontentRest⟩ := ih w₁
      rw [hserializer] at hrest
      simp only [writeAll, allWritten, hw] at hrest hcontentRest ⊢
      refine ⟨added ++ addedRest, .cons hadds hrest, ?_⟩
      rw [hcontentRest, hcontent, List.append_assoc]

end PacketWriter

namespace BufferedWriter

def writeAll (w : BufferedWriter) (values : List Value) :
    BufferedWriter × List (Except Error Unit) :=
  allWritten write w values

/-- Whatever the buffer holds, a value is written as without it. -/
theorem write_writer (w : BufferedWriter) (value : Value) :
    w.writer.write value = ((w.write value).1.writer, (w.write value).2) := by
  obtain ⟨⟨⟨t⟩, sink⟩, buffer⟩ := w
  simp only [write, PacketWriter.write, Serializer.serialize, List.take_zero]
  cases (⟨t⟩ : Serializer).serializeInto value [] with
  | mk out outcome => cases outcome <;> rfl

end BufferedWriter

/-- After any calls to write values, the sink holds in addition what these calls add to it, in order: the whole
encoding of a value whose call succeeds, a strict part of it where the sink fails, nothing of a value that is
rejected. The same is so with a buffer, whatever it holds. -/
theorem PacketWriter.content_writeAll (w : PacketWriter) (values : List Value) :
    ∃ added, AddsAll w.serializer.packetType values (w.writeAll values).2 added ∧
      (w.writeAll values).1.sink.content = w.sink.content ++ added ∧
      ∀ buffer,
        ((⟨w, buffer⟩ : BufferedWriter).writeAll values).2 = (w.writeAll values).2 ∧
        ((⟨w, buffer⟩ : BufferedWriter).writeAll values).1.writer = (w.writeAll values).1 := by
  obtain ⟨added, hadds, hcontent⟩ := w.addsAll_of_writeAll values
  refine ⟨added, hadds, hcontent, fun buffer => ?_⟩
  have h : w.writeAll values = _ :=
    allWritten_seen BufferedWriter.writer BufferedWriter.write_writer ⟨w, buffer⟩ values
  rw [h]
  exact ⟨rfl, rfl⟩

-- One byte of the first number, none of a value that is no number, and both bytes of the last one.
example :
    ((⟨⟨.ofCodec (.scalar .u16)⟩, { writes := [.accept 1, .failed "full", .interrupted, .accept 1] }⟩ :
      PacketWriter).writeAll [.uint 258, .null, .uint 772]).1.sink.content = [1, 3, 4] := by
  rfl

end PacketCodec
