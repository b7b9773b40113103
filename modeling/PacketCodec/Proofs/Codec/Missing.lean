import PacketCodec.Proofs.Codec.Finality

/-!
# How many bytes are missing

When bytes are missing, reading names a length of the buffer that it needs. The buffer is shorter than that,
and nothing that is read once more bytes are there ends before that length, so to wait until the buffer is
that long is never to wait for bytes behind the value.
-/

namespace PacketCodec

/-- The outcome of reading from `start` on in a buffer of a given length tells the one of reading more bytes,
where `stop` is the offset behind a result. No later result ends before the start, a result stays, and bytes
that are missing are missing at an offset that no later result stops short of. -/
structure Demands {α : Type} (length start : Nat) (stop : α → Nat)
    (early late : Except ReadError α) : Prop where
  advances : ∀ a, late = .ok a → start ≤ stop a
  stays : ∀ a, early = .ok a → late = .ok a
  waits : ∀ needed available, early = .error (.incomplete needed available) →
    available = length ∧ length < needed ∧ ∀ a, late = .ok a → needed ≤ stop a

namespace Demands

variable {α β : Type} {length start : Nat} {stop : α → Nat} {stop' : β → Nat}
  {early late : Except ReadError α}

theorem ok {a : α} (h : start ≤ stop a) : Demands length start stop (.ok a) (.ok a) where
  advances b hb := by
    cases hb
    exact h
  stays _ hb := hb
  waits _ _ he := nomatch he

theorem invalid (e : DecodeError) :
    Demands length start stop (.error (.invalid e)) (.error (.invalid e)) where
  advances _ hb := nomatch hb
  stays _ hb := nomatch hb
  waits _ _ he := nomatch he

theorem bind {f g : α → Except ReadError β} (h : Demands length start stop early late)
    (hf : ∀ a, Demands length (stop a) stop' (f a) (g a)) :
    Demands length start stop' (early >>= f) (late >>= g) where
  advances b hb := by
    obtain ⟨a, ha, hb⟩ := Except.bind_eq_ok.1 hb
    exact Nat.le_trans (h.advances a ha) ((hf a).advances b hb)
  stays b hb := by
    obtain ⟨a, ha, hb⟩ := Except.bind_eq_ok.1 hb
    exact Except.bind_eq_ok.2 ⟨a, h.stays a ha, (hf a).stays b hb⟩
  waits needed available he := by
    rcases Except.bind_eq_error.1 he with he | ⟨a, ha, he⟩
    · -- What is read first asks for the bytes, and what is read behind it only goes on from there.
      obtain ⟨havailable, hlt, hneeded⟩ := h.waits needed available he
      refine ⟨havailable, hlt, fun b hb => ?_⟩
      obtain ⟨a, ha, hb⟩ := Except.bind_eq_ok.1 hb
      exact Nat.le_trans (hneeded a ha) ((hf a).advances b hb)
    · obtain ⟨havailable, hlt, hneeded⟩ := (hf a).waits needed available he
      refine ⟨havailable, hlt, fun b hb => ?_⟩
      obtain ⟨a', ha', hb⟩ := Except.bind_eq_ok.1 hb
      cases (h.stays a ha).symm.trans ha'
      exact hneeded b hb

theorem map {f : α → β} (h : Demands length start stop early late)
    (hf : ∀ a, stop a ≤ stop' (f a)) :
    Demands length start stop' (early >>= fun a => .ok (f a)) (late >>= fun a => .ok (f a)) :=
  h.bind fun a => .ok (hf a)

theorem within (name : String) (h : Demands length start stop early late) :
    Demands length start stop (early.mapError (ReadError.within name))
      (late.mapError (ReadError.within name)) where
  advances a ha := h.advances a (Except.mapError_eq_ok.1 ha)
  stays a ha := Except.mapError_eq_ok.2 (h.stays a (Except.mapError_eq_ok.1 ha))
  waits needed available he := by
    obtain ⟨e, he, hw⟩ := Except.mapError_eq_error.1 he
    cases e with
    | invalid _ => cases hw
    | incomplete _ _ =>
      cases hw
      obtain ⟨havailable, hlt, hneeded⟩ := h.waits needed available he
      exact ⟨havailable, hlt, fun a ha => hneeded a (Except.mapError_eq_ok.1 ha)⟩

end Demands

section Leaves

variable {buf : Bytes} (more : Bytes)

theorem takeBytes_demands (hmax : buf.length < Bytes.maxOffset) (offset count : Nat) :
    Demands buf.length offset (fun _ => offset + count) (takeBytes buf offset count)
      (takeBytes (buf ++ more) offset count) where
  advances _ _ := Nat.le_add_right offset count
  stays _ hb := ((foretells_alongside buf more).taken offset count).of_ok hb
  waits needed available he := by
    unfold takeBytes Bytes.slice? at he
    split at he
    · cases he
    · rename_i hnone
      split at hnone
      · cases hnone
      · cases he
        exact ⟨rfl, by omega, fun _ _ => Nat.min_le_left _ _⟩

theorem takeCounted_demands (hmax : buf.length < Bytes.maxOffset) (offset count : Nat) :
    Demands buf.length offset (fun _ => offset + count) (takeCounted buf offset count)
      (takeCounted (buf ++ more) offset count) := by
  unfold takeCounted
  split
  · exact .invalid _
  · exact takeBytes_demands more hmax offset count

namespace Varint

theorem readByte_demands (hmax : buf.length < Bytes.maxOffset) (offset : Nat) :
    Demands buf.length offset (fun _ => offset + 1) (readByte buf offset)
      (readByte (buf ++ more) offset) where
  advances _ _ := Nat.le_add_right offset 1
  stays _ hb := ((foretells_alongside buf more).byte offset).of_ok hb
  waits needed available he := by
    unfold readByte at he
    split at he
    · cases he
    · rename_i hnone
      cases he
      have hend := List.getElem?_eq_none_iff.1 hnone
      exact ⟨rfl, by omega, fun _ _ => Nat.min_le_left _ _⟩

theorem readGroups_demands (hmax : buf.length < Bytes.maxOffset) (left offset : Nat) :
    Demands buf.length offset (fun r => offset + r.2) (readGroups buf left offset)
      (readGroups (buf ++ more) left offset) := by
  induction left generalizing offset with
  | zero => exact .invalid _
  | succ left ih =>
    apply (readByte_demands more hmax offset).bind
    intro b
    split
    · exact .ok (Nat.le_refl _)
    · exact (ih (offset + 1)).map fun r => by
        change offset + 1 + r.2 ≤ offset + (r.2 + 1)
        omega

end Varint

theorem Scalar.read_demands (hmax : buf.length < Bytes.maxOffset) (s : Scalar) (offset : Nat) :
    Demands buf.length offset (fun r => offset + r.2) (s.read buf offset)
      (s.read (buf ++ more) offset) := by
  cases s with
  | varint =>
    have hread : Demands buf.length offset (fun r => offset + r.2) (Varint.read buf offset)
        (Varint.read (buf ++ more) offset) :=
      (Varint.readGroups_demands more hmax _ offset).map fun _ => Nat.le_refl _
    exact hread.map fun _ => Nat.le_refl _
  | void => exact .ok (Nat.le_refl _)
  | _ => exact (takeBytes_demands more hmax offset _).map fun _ => Nat.le_refl _

end Leaves

theorem lengthOf_demands (length start : Nat) (value : Value) :
    Demands length start (fun _ => start) (lengthOf value) (lengthOf value) := by
  unfold lengthOf
  split
  · exact .ok (Nat.le_refl _)
  · exact .invalid _

theorem guardZeroWidth_demands (length place : Nat) {remaining remaining' : Nat}
    (hle : remaining ≤ remaining') (count : Nat) (item : Decoded) :
    Demands length (place + item.size) (fun item' => place + item'.size)
      (guardZeroWidth count remaining item) (guardZeroWidth count remaining' item) where
  advances item' hi := by
    obtain rfl := guardZeroWidth_eq_ok hi
    exact Nat.le_refl _
  stays item' hi := by
    unfold guardZeroWidth at hi ⊢
    split at hi
    · cases hi
    · rw [if_neg (by omega)]
      exact hi
  waits needed available he := by
    unfold guardZeroWidth at he
    split at he <;> cases he

theorem readItems_demands {length : Nat} {read read' : Nat → Except ReadError Decoded}
    (hread : ∀ place, Demands length place (fun item => place + item.size) (read place) (read' place))
    (count offset : Nat) :
    Demands length offset (fun r => offset + r.2) (readItems read count offset)
      (readItems read' count offset) := by
  induction count generalizing offset with
  | zero => exact .ok (Nat.le_refl _)
  | succ count ih =>
    apply (hread offset).bind
    intro item
    exact (ih (offset + item.size)).map fun r => Nat.le_of_eq (Nat.add_assoc offset item.size r.2)

namespace Codec

private theorem decodeFields_demands {length : Nat} {buf buf' : Bytes} {fields : List (String × Codec)}
    (ih : ∀ field ∈ fields, ∀ scope offset, Demands length offset (fun d => offset + d.size)
      (field.2.decode buf scope offset) (field.2.decode buf' scope offset))
    (scope : Scope) (offset : Nat) (record : Record) :
    Demands length offset (fun r => offset + r.2) (decodeFields fields buf scope offset record)
      (decodeFields fields buf' scope offset record) := by
  induction fields generalizing offset record with
  | nil => exact .ok (Nat.le_refl _)
  | cons field rest ihRest =>
    obtain ⟨name, c⟩ := field
    have hc := ih (name, c) List.mem_cons_self (record :: scope) offset
    have hrest := ihRest fun field hf => ih field (List.mem_cons_of_mem _ hf)
    apply (hc.within name).bind
    intro item
    exact (hrest _ _).map fun r => Nat.le_of_eq (Nat.add_assoc offset item.size r.2)

/-- What a codec decodes from some bytes tells what it decodes once more of them are there. -/
theorem decode_demands {buf : Bytes} (hmax : buf.length < Bytes.maxOffset) (more : Bytes) (c : Codec) :
    ∀ scope offset, Demands buf.length offset (fun d => offset + d.size) (c.decode buf scope offset)
      (c.decode (buf ++ more) scope offset) := by
  induction c with
  | scalar p =>
    intro scope offset
    exact (Scalar.read_demands more hmax p.scalar offset).map fun _ => Nat.le_refl _
  | text count ih =>
    intro scope offset
    apply (ih scope offset).bind
    intro announced
    apply (lengthOf_demands _ _ announced.value).bind
    intro length
    apply (takeCounted_demands more hmax _ length).bind
    intro bs
    split
    · exact .ok (Nat.le_of_eq (Nat.add_assoc offset announced.size length))
    · exact .invalid _
  | block length =>
    intro scope offset
    exact (takeCounted_demands more hmax offset length).map fun _ => Nat.le_refl _
  | countedBlock count ih =>
    intro scope offset
    apply (ih scope offset).bind
    intro announced
    apply (lengthOf_demands _ _ announced.value).bind
    intro length
    exact (takeCounted_demands more hmax _ length).map fun _ =>
      Nat.le_of_eq (Nat.add_assoc offset announced.size length)
  | option inner ih =>
    intro scope offset
    apply (takeBytes_demands more hmax offset 1).bind
    intro presence
    split
    · exact .ok (Nat.le_refl _)
    · exact (ih scope (offset + 1)).map fun item => by
        change offset + 1 + item.size ≤ offset + (item.size + 1)
        omega
  | array element length ih =>
    intro scope offset
    exact (readItems_demands (ih scope) length offset).map fun _ => Nat.le_refl _
  | countedArray count element ihCount ihElement =>
    intro scope offset
    apply (ihCount scope offset).bind
    intro announced
    apply (lengthOf_demands _ _ announced.value).bind
    intro length
    have hle : buf.length - (offset + announced.size) ≤
        (buf ++ more).length - (offset + announced.size) := by
      rw [List.length_append]
      omega
    refine (readItems_demands (fun place => ?_) length _).map fun r =>
      Nat.le_of_eq (Nat.add_assoc offset announced.size r.2)
    exact (ihElement scope place).bind fun item =>
      guardZeroWidth_demands buf.length place hle length item
  | container fields ih =>
    intro scope offset
    exact (decodeFields_demands ih scope offset []).map fun _ => Nat.le_refl _
  | switch on branches default size ihBranches ihDefault =>
    intro scope offset
    simp only [decode_switch]
    cases on.key scope with
    | error fault => exact .invalid _
    | ok key =>
      exact alternative_of_forall
        (P := fun d => Demands buf.length offset (fun item => offset + item.size)
          (d.decode buf scope offset) (d.decode (buf ++ more) scope offset))
        (fun branch hb => ihBranches branch hb scope offset) (ihDefault scope offset) key

/-- When bytes are missing, the length that decoding asks for is more than the buffer has, and no value that
is decoded at the same offset once more bytes are there ends before it. Every buffer is shorter than the
largest offset. -/
theorem needed_sound {c : Codec} {buf : Bytes} {scope : Scope} {offset needed available : Nat}
    (hmax : buf.length < Bytes.maxOffset)
    (h : c.decode buf scope offset = .error (.incomplete needed available)) :
    available = buf.length ∧ available < needed ∧
      ∀ more d, c.decode (buf ++ more) scope offset = .ok d → needed ≤ offset + d.size := by
  obtain ⟨rfl, hlt, _⟩ := (c.decode_demands hmax [] scope offset).waits needed available h
  refine ⟨rfl, hlt, fun more d hd => ?_⟩
  exact ((c.decode_demands hmax more scope offset).waits needed _ h).2.2 d hd

theorem message_needed_sound :
    ([255, 1, 1, 2, 97] : Bytes).length < Bytes.maxOffset ∧
      message.decode [255, 1, 1, 2, 97] [] 1 = .error (.incomplete 6 5) ∧
      message.decode ([255, 1, 1, 2, 97] ++ [98, 0, 7]) [] 1 =
        .ok ⟨.record [("kind", .uint 1), ("names", .array [.string "ab"]), ("body", .uint 7)], 7⟩ ∧
      5 = ([255, 1, 1, 2, 97] : Bytes).length ∧ 5 < 6 ∧ 6 ≤ 1 + 7 := by
  have hmax : ([255, 1, 1, 2, 97] : Bytes).length < Bytes.maxOffset := by decide
  have hearly : message.decode [255, 1, 1, 2, 97] [] 1 = .error (.incomplete 6 5) := by rfl
  have hlate : message.decode ([255, 1, 1, 2, 97] ++ [98, 0, 7]) [] 1 =
      .ok ⟨.record [("kind", .uint 1), ("names", .array [.string "ab"]), ("body", .uint 7)], 7⟩ := by
    rfl
  obtain ⟨havailable, hlt, hneeded⟩ := needed_sound hmax hearly
  exact ⟨hmax, hearly, hlate, havailable, hlt, hneeded _ _ hlate⟩

end Codec

end PacketCodec
