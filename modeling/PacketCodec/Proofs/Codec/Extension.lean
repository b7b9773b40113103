import PacketCodec.Proofs.Codec.Alongside
import PacketCodec.Proofs.Codec.Inversion

/-!
# Reading and what follows

Reading stays within its buffer, and bytes that arrive later change nothing but that bytes were
missing. Only a counted array compares what it announces with how many bytes there are, and does so only
for items without bytes.
-/

namespace PacketCodec

/-- The outcome of reading is the one of reading more bytes, unless bytes were missing. -/
inductive Anticipates {α : Type} : Except ReadError α → Except ReadError α → Prop
  | waits (needed available : Nat) (late : Except ReadError α) :
      Anticipates (.error (.incomplete needed available)) late
  | agrees (outcome : Except ReadError α) : Anticipates outcome outcome

namespace Anticipates

variable {α β : Type} {early late : Except ReadError α}

theorem bind {f g : α → Except ReadError β} (h : Anticipates early late)
    (hf : ∀ a, early = .ok a → Anticipates (f a) (g a)) :
    Anticipates (early >>= f) (late >>= g) := by
  cases h with
  | waits needed available => exact .waits needed available _
  | agrees =>
    cases early with
    | error e => exact .agrees _
    | ok a => exact hf a rfl

theorem bind_same {f : α → Except ReadError β} (h : Anticipates early late) :
    Anticipates (early >>= f) (late >>= f) :=
  h.bind fun _ _ => .agrees _

theorem within (name : String) (h : Anticipates early late) :
    Anticipates (early.mapError (ReadError.within name)) (late.mapError (ReadError.within name)) := by
  cases h with
  | waits needed available => exact .waits needed available _
  | agrees => exact .agrees _

end Anticipates

section TakeBytes

variable {buf bs : Bytes} {offset count : Nat}

theorem takeBytes_anticipates (buf more : Bytes) (offset count : Nat) :
    Anticipates (takeBytes buf offset count) (takeBytes (buf ++ more) offset count) := by
  cases h : takeBytes buf offset count with
  | ok bs =>
    obtain ⟨pre, post, rfl, hpre, hbs⟩ := takeBytes_eq_ok.1 h
    have hmore : takeBytes (pre ++ bs ++ post ++ more) offset count = .ok bs :=
      takeBytes_eq_ok.2 ⟨pre, post ++ more, by simp, hpre, hbs⟩
    rw [hmore]
    exact .agrees _
  | error e =>
    unfold takeBytes at h
    split at h
    · cases h
    · cases h
      exact .waits _ _ _

/-- Bytes read from an offset on lie in the buffer, if there are any. -/
def Bytes.Covers (buf : Bytes) (offset size : Nat) : Prop :=
  size = 0 ∨ offset + size ≤ buf.length

theorem Bytes.Covers.add {m n : Nat} (hm : buf.Covers offset m) (hn : buf.Covers (offset + m) n) :
    buf.Covers offset (m + n) := by
  unfold Bytes.Covers at *
  omega

theorem covers_of_takeBytes (h : takeBytes buf offset count = .ok bs) : buf.Covers offset count := by
  obtain ⟨pre, post, rfl, rfl, rfl⟩ := takeBytes_eq_ok.1 h
  refine .inr ?_
  simp only [List.length_append]
  omega

theorem covers_of_takeCounted (h : takeCounted buf offset count = .ok bs) :
    buf.Covers offset count :=
  covers_of_takeBytes (takeCounted_eq_ok.1 h).2

theorem takeCounted_anticipates (buf more : Bytes) (offset count : Nat) :
    Anticipates (takeCounted buf offset count) (takeCounted (buf ++ more) offset count) := by
  unfold takeCounted
  split
  · exact .agrees _
  · exact takeBytes_anticipates buf more offset count

end TakeBytes

namespace Varint

theorem readByte_anticipates (buf more : Bytes) (offset : Nat) :
    Anticipates (readByte buf offset) (readByte (buf ++ more) offset) := by
  unfold readByte
  cases h : buf[offset]? with
  | none => exact .waits _ _ _
  | some b =>
    rw [List.getElem?_append_left (List.getElem?_eq_some_iff.1 h).1, h]
    exact .agrees _

theorem covers_of_readByte {buf : Bytes} {offset : Nat} {b : UInt8}
    (h : readByte buf offset = .ok b) : buf.Covers offset 1 := by
  unfold readByte at h
  split at h
  · rename_i hget
    exact .inr (List.getElem?_eq_some_iff.1 hget).1
  · cases h

theorem covers_of_readGroups {buf : Bytes} {left offset n size : Nat}
    (h : readGroups buf left offset = .ok (n, size)) : buf.Covers offset size := by
  induction left generalizing offset n size with
  | zero => cases h
  | succ left ih =>
    obtain ⟨b, hb, h⟩ := Except.bind_eq_ok.1 h
    have hone : buf.Covers offset 1 := covers_of_readByte hb
    split at h
    · cases h
      exact hone
    · obtain ⟨⟨high, rest⟩, hr, h⟩ := Except.bind_eq_ok.1 h
      cases h
      rw [Nat.add_comm]
      exact hone.add (ih hr)

end Varint

theorem Scalar.covers_of_read {s : Scalar} {buf : Bytes} {offset size : Nat} {value : Value}
    (h : s.read buf offset = .ok (value, size)) : buf.Covers offset size := by
  cases s with
  | varint =>
    obtain ⟨⟨bits, size'⟩, hr, h⟩ := Except.bind_eq_ok.1 h
    obtain ⟨⟨n, size''⟩, hg, hr⟩ := Except.bind_eq_ok.1 hr
    cases hr
    cases h
    exact Varint.covers_of_readGroups hg
  | void =>
    cases h
    exact .inl rfl
  | _ =>
    obtain ⟨bs, hb, h⟩ := Except.bind_eq_ok.1 h
    cases h
    exact covers_of_takeBytes hb

theorem covers_of_readItems {read : Nat → Except ReadError Decoded} {buf : Bytes}
    (hread : ∀ offset item, read offset = .ok item → buf.Covers offset item.size)
    {count offset size : Nat} {values : List Value}
    (h : readItems read count offset = .ok (values, size)) : buf.Covers offset size := by
  induction count generalizing offset values size with
  | zero =>
    cases h
    exact .inl rfl
  | succ count ih =>
    obtain ⟨item, rest, size', hi, hr, rfl, rfl⟩ := readItems_succ_eq_ok.1 h
    exact (hread offset item hi).add (ih hr)

theorem anticipates_alongside (buf more : Bytes) :
    ReadsAlongside Anticipates buf (buf ++ more) id where
  refl := .agrees
  bind := Anticipates.bind
  within := Anticipates.within
  further _ _ := rfl
  byte := Varint.readByte_anticipates buf more
  taken := takeBytes_anticipates buf more
  counted := takeCounted_anticipates buf more

namespace Codec

/-- Whatever a codec decodes takes at least one byte. -/
def TakesBytes (c : Codec) : Prop :=
  ∀ buf scope offset d, c.decode buf scope offset = .ok d → d.size ≠ 0

/-- If a codec counts items, each of them takes bytes. -/
def CountsBytes : Codec → Prop
  | .countedArray _ element => element.TakesBytes
  | _ => True

/-- The items of every counted array in a codec take bytes. -/
def ItemsTakeBytes (c : Codec) : Prop :=
  c.Everywhere CountsBytes

theorem takesBytes_u8 : (Codec.scalar .u8).TakesBytes := by
  intro buf scope offset d h
  obtain ⟨bs, _, h⟩ := Except.bind_eq_ok.1 (decode_scalar_eq_ok.1 h)
  have hsize : 1 = d.size := congrArg Prod.snd (Except.ok.inj h)
  omega

theorem TakesBytes.text {count : Codec} (hc : count.TakesBytes) : (Codec.text count).TakesBytes := by
  intro buf scope offset d h
  obtain ⟨announced, length, bs, s, ha, _, _, _, rfl⟩ := decode_text_eq_ok.1 h
  have hsize := hc buf scope offset announced ha
  change announced.size + length ≠ 0
  omega

theorem message_itemsTakeBytes : message.ItemsTakeBytes :=
  message_everywhere trivial takesBytes_u8.text trivial trivial trivial fun _ _ => trivial

theorem TakesBytes.guardZeroWidth_eq {element : Codec} (h : element.TakesBytes) {buf : Bytes}
    {scope : Scope} {offset : Nat} {item : Decoded} (hi : element.decode buf scope offset = .ok item)
    (count remaining : Nat) : guardZeroWidth count remaining item = .ok item :=
  if_neg fun hz => h buf scope offset item hi hz.1

theorem TakesBytes.decode_guarded {element : Codec} (h : element.TakesBytes) (buf : Bytes)
    (scope : Scope) (count remaining offset : Nat) :
    element.decode buf scope offset >>= guardZeroWidth count remaining =
      element.decode buf scope offset := by
  cases hd : element.decode buf scope offset with
  | error e => rfl
  | ok item => exact h.guardZeroWidth_eq hd count remaining

theorem CountsBytes.guardsAlongside {c : Codec} (h : c.CountsBytes) (buf more : Bytes) :
    c.GuardsAlongside Anticipates buf (buf ++ more) id := by
  cases c with
  | countedArray count element =>
    intro scope offset item hi length start
    have hbytes : element.TakesBytes := h
    rw [hbytes.guardZeroWidth_eq hi, hbytes.guardZeroWidth_eq hi]
    exact .agrees _
  | _ => trivial

/-- Bytes that follow change what is decoded only where bytes were missing. -/
theorem decode_anticipates {c : Codec} (h : c.ItemsTakeBytes) (buf more : Bytes) :
    ∀ scope offset, Anticipates (c.decode buf scope offset) (c.decode (buf ++ more) scope offset) :=
  (anticipates_alongside buf more).decode (h.mono fun _ hd => hd.guardsAlongside buf more)

private theorem covers_of_decodeFields {fields : List (String × Codec)} {buf : Bytes}
    (ih : ∀ field ∈ fields, ∀ scope offset d, field.2.decode buf scope offset = .ok d →
      buf.Covers offset d.size) {scope : Scope} {offset size : Nat} {record record' : Record}
    (h : decodeFields fields buf scope offset record = .ok (record', size)) :
    buf.Covers offset size := by
  induction fields generalizing offset record size with
  | nil =>
    cases h
    exact .inl rfl
  | cons field rest ihRest =>
    obtain ⟨name, c⟩ := field
    obtain ⟨item, size', hi, hr, rfl⟩ := decodeFields_cons_eq_ok.1 h
    have hc := ih (name, c) List.mem_cons_self _ offset item hi
    exact hc.add (ihRest (fun field hf => ih field (List.mem_cons_of_mem _ hf)) hr)

theorem covers_of_decode {c : Codec} {buf : Bytes} :
    ∀ {scope offset d}, c.decode buf scope offset = .ok d → buf.Covers offset d.size := by
  induction c with
  | scalar p =>
    intro scope offset d h
    exact Scalar.covers_of_read (decode_scalar_eq_ok.1 h)
  | text count ih =>
    intro scope offset d h
    obtain ⟨announced, length, bs, s, ha, _, hb, _, rfl⟩ := decode_text_eq_ok.1 h
    exact (ih ha).add (covers_of_takeCounted hb)
  | block length =>
    intro scope offset d h
    obtain ⟨bs, hb, rfl⟩ := decode_block_eq_ok.1 h
    exact covers_of_takeCounted hb
  | countedBlock count ih =>
    intro scope offset d h
    obtain ⟨announced, length, bs, ha, _, hb, rfl⟩ := decode_countedBlock_eq_ok.1 h
    exact (ih ha).add (covers_of_takeCounted hb)
  | option inner ih =>
    intro scope offset d h
    obtain ⟨presence, hp, ⟨_, rfl⟩ | ⟨_, item, hi, rfl⟩⟩ := decode_option_eq_ok.1 h
    · exact covers_of_takeBytes hp
    · rw [Nat.add_comm]
      exact (covers_of_takeBytes hp).add (ih hi)
  | array element length ih =>
    intro scope offset d h
    obtain ⟨values, size, hr, rfl⟩ := decode_array_eq_ok.1 h
    exact covers_of_readItems (fun _ _ hi => ih hi) hr
  | countedArray count element ihCount ihElement =>
    intro scope offset d h
    obtain ⟨announced, length, values, size, ha, _, hr, rfl⟩ := decode_countedArray_eq_ok.1 h
    exact (ihCount ha).add (covers_of_readItems (fun _ _ hi => ihElement (decode_of_guarded hi)) hr)
  | container fields ih =>
    intro scope offset d h
    obtain ⟨record, size, hr, rfl⟩ := decode_container_eq_ok.1 h
    exact covers_of_decodeFields (fun field hf _ _ _ hd => ih field hf hd) hr
  | switch on branches default size ihBranches ihDefault =>
    intro scope offset d h
    obtain ⟨key, _, h⟩ := decode_switch_eq_ok.1 h
    exact alternative_of_forall
      (P := fun e => e.decode buf scope offset = .ok d → buf.Covers offset d.size)
      (fun branch hb hd => ihBranches branch hb hd) (fun hd => ihDefault hd) key h

end Codec

end PacketCodec
