import PacketCodec.Proofs.Framing.Calls

/-!
# Decoding in words

On a machine offsets and sizes are words of 64 bits, and a sum that is no word is an accident. Here a codec is
decoded with every sum checked, in the order in which a machine forms them: sizes are added up as they are met,
and each offset is the first one and what has been read since. Only the end of bytes to take is no such sum:
where it is no word, that has an outcome of its own. No sum fails, from whatever offset decoding starts, since
whatever has a size lies in the buffer; so the outcome is that of decoding in numbers.
-/

namespace PacketCodec

/-- A reading that forms sums of words. It comes to nothing where a sum is no word. -/
abbrev WordReading (α : Type) := ExceptT ReadError Option α

namespace WordReading

variable {α β : Type}

def ofOutcome (outcome : Except ReadError α) : WordReading α := ExceptT.mk (some outcome)

def sum (m n : Nat) : WordReading Nat :=
  ExceptT.mk (if m + n ≤ Bytes.maxOffset then some (.ok (m + n)) else none)

/-- The reading seen from outside a field. -/
def within (name : String) (x : WordReading α) : WordReading α :=
  ExceptT.mk (x.run.map fun outcome => outcome.mapError (ReadError.within name))

end WordReading

open WordReading

namespace Varint

/-- The number that at most `left` groups spell behind `read` others, and how many there are in all. -/
def groupsInWords (buf : Bytes) (offset : Nat) : Nat → Nat → WordReading (Nat × Nat)
  | 0, _ => ofOutcome (.error (.ofFault .varintTooLong))
  | left + 1, read => do
    let place ← sum offset read
    let b ← ofOutcome (readByte buf place)
    let read ← sum read 1
    if b < 128 then return (b.toNat, read)
    else
      let (high, size) ← groupsInWords buf offset left read
      return (b.toNat - 128 + 128 * high, size)

end Varint

/-- The value of a scalar at an offset, and how many bytes it takes. -/
def Scalar.readInWords (s : Scalar) (buf : Bytes) (offset : Nat) : WordReading (Value × Nat) :=
  match s with
  | .varint => do
    let (n, size) ← Varint.groupsInWords buf offset Varint.maxGroups 0
    return (.int (Int64.ofInt (Varint.toInt (n % UInt32.size))), size)
  | s => ofOutcome (s.read buf offset)

/-- Reads `count` items behind `size` bytes that were read from an offset on. -/
def itemsInWords (read : Nat → WordReading Decoded) (offset : Nat) :
    Nat → Nat → WordReading (List Value × Nat)
  | 0, size => return ([], size)
  | count + 1, size => do
    let place ← sum offset size
    let item ← read place
    let size ← sum size item.size
    let (items, size) ← itemsInWords read offset count size
    return (item.value :: items, size)

namespace Codec

mutual

/-- The value at an offset and the number of bytes it takes. -/
def decodeInWords : Codec → Bytes → Scope → Nat → WordReading Decoded
  | .scalar p, buf, _, offset => do
    let (value, size) ← p.scalar.readInWords buf offset
    return ⟨value, size⟩
  | .text count, buf, scope, offset => do
    let announced ← count.decodeInWords buf scope offset
    let length ← ofOutcome (lengthOf announced.value)
    let start ← sum offset announced.size
    let bs ← ofOutcome (takeCounted buf start length)
    match Utf8.decode bs with
    | .ok s => do
      let size ← sum announced.size length
      return ⟨.string s, size⟩
    | .error fault => ofOutcome (.error (.ofFault (.invalidText fault)))
  | .block length, buf, _, offset => do
    let bs ← ofOutcome (takeCounted buf offset length)
    return ⟨.bytes bs, length⟩
  | .countedBlock count, buf, scope, offset => do
    let announced ← count.decodeInWords buf scope offset
    let length ← ofOutcome (lengthOf announced.value)
    let start ← sum offset announced.size
    let bs ← ofOutcome (takeCounted buf start length)
    let size ← sum announced.size length
    return ⟨.bytes bs, size⟩
  | .option inner, buf, scope, offset => do
    let presence ← ofOutcome (takeBytes buf offset 1)
    if presence = [0] then return ⟨.null, 1⟩
    else
      let start ← sum offset 1
      let item ← inner.decodeInWords buf scope start
      let size ← sum item.size 1
      return ⟨item.value, size⟩
  | .array element length, buf, scope, offset => do
    let (items, size) ←
      itemsInWords (fun place => element.decodeInWords buf scope place) offset length 0
    return ⟨.array items, size⟩
  | .countedArray count element, buf, scope, offset => do
    let announced ← count.decodeInWords buf scope offset
    let length ← ofOutcome (lengthOf announced.value)
    let start ← sum offset announced.size
    let remaining := buf.length - start
    let (items, size) ← itemsInWords
      (fun place => element.decodeInWords buf scope place >>= fun item =>
        ofOutcome (guardZeroWidth length remaining item)) offset length announced.size
    return ⟨.array items, size⟩
  | .container fields, buf, scope, offset => do
    let (record, size) ← fieldsInWords fields buf scope offset 0 []
    return ⟨.record record, size⟩
  | .switch on branches default _, buf, scope, offset =>
    match on.key scope with
    | .error fault => ofOutcome (.error (.ofFault (.discriminant fault)))
    | .ok key =>
      match branchInWords branches key buf scope offset with
      | some outcome => outcome
      | none => default.decodeInWords buf scope offset

/-- The record that the fields behind `size` bytes extend, and the number of bytes in all. -/
def fieldsInWords : List (String × Codec) → Bytes → Scope → Nat → Nat → Record →
    WordReading (Record × Nat)
  | [], _, _, _, size, record => return (record, size)
  | (name, c) :: rest, buf, scope, offset, size, record => do
    let place ← sum offset size
    let item ← within name (c.decodeInWords buf (record :: scope) place)
    let size ← sum size item.size
    fieldsInWords rest buf scope offset size (Table.push record name item.value)

def branchInWords : List (String × Codec) → String → Bytes → Scope → Nat →
    Option (WordReading Decoded)
  | [], _, _, _, _ => none
  | (k, c) :: rest, key, buf, scope, offset =>
    if k = key then some (c.decodeInWords buf scope offset)
    else branchInWords rest key buf scope offset

end

end Codec

namespace WordReading

variable {α β γ : Type} {x : WordReading α} {y : Except ReadError α}

/-- All sums of a reading are words, and this is its outcome. -/
def ComesTo (x : WordReading α) (y : Except ReadError α) : Prop :=
  x.run = some y

theorem comesTo_ofOutcome (y : Except ReadError α) : (ofOutcome y).ComesTo y := rfl

theorem comesTo_pure (a : α) : (pure a : WordReading α).ComesTo (.ok a) := rfl

theorem comesTo_pure_of_eq {a b : α} (h : a = b) : (pure a : WordReading α).ComesTo (.ok b) :=
  h ▸ comesTo_pure a

theorem ComesTo.bind {f : α → WordReading β} {g : α → Except ReadError β} (h : x.ComesTo y)
    (hf : ∀ a, y = .ok a → (f a).ComesTo (g a)) : (x >>= f).ComesTo (y >>= g) := by
  have hx : (x >>= f).run = x.run.bind fun outcome => (ExceptT.bindCont f outcome) := rfl
  rw [ComesTo, hx, h]
  cases y with
  | error e => rfl
  | ok a => exact hf a rfl

theorem ComesTo.map_bind {p : β → α} {z : Except ReadError β} {f : α → WordReading γ}
    {g : β → Except ReadError γ} (h : x.ComesTo (z.map p))
    (hf : ∀ b, z = .ok b → (f (p b)).ComesTo (g b)) : (x >>= f).ComesTo (z >>= g) := by
  cases z with
  | error e => exact h.bind (g := fun _ => .error e) fun _ ha => nomatch ha
  | ok b => exact h.bind (g := fun _ => g b) fun _ ha => Except.ok.inj ha ▸ hf b rfl

theorem ComesTo.sum_bind {m n : Nat} {f : Nat → WordReading α} (h : m + n ≤ Bytes.maxOffset)
    (hf : (f (m + n)).ComesTo y) : (sum m n >>= f).ComesTo y := by
  have hsum : (sum m n).ComesTo (.ok (m + n)) := if_pos h
  exact hsum.bind fun a ha => Except.ok.inj ha ▸ hf

theorem ComesTo.within (name : String) (h : x.ComesTo y) :
    (within name x).ComesTo (y.mapError (ReadError.within name)) := by
  rw [ComesTo] at h
  rw [ComesTo, WordReading.within, ExceptT.run_mk, h]
  rfl

end WordReading

namespace Codec

private theorem branchInWords_eq (branches : List (String × Codec)) (key : String) (buf : Bytes)
    (scope : Scope) (offset : Nat) : branchInWords branches key buf scope offset =
      (Table.get? branches key).map fun c => c.decodeInWords buf scope offset :=
  Table.eq_map_get? (fun rest => branchInWords rest key buf scope offset) rfl (fun _ _ _ => rfl) branches

theorem decodeInWords_switch (on : Discriminant) (branches : List (String × Codec))
    (default : Codec) (size : Option Nat) (buf : Bytes) (scope : Scope) (offset : Nat) :
    (Codec.switch on branches default size).decodeInWords buf scope offset =
      match on.key scope with
      | .error fault => ofOutcome (.error (.ofFault (.discriminant fault)))
      | .ok key => (alternative branches default key).decodeInWords buf scope offset := by
  rw [decodeInWords]
  cases on.key scope with
  | error fault => rfl
  | ok key =>
    simp only [branchInWords_eq, alternative]
    cases Table.get? branches key <;> rfl

end Codec

section Bounds

variable {buf : Bytes} {offset size : Nat}

-- Decoding starts anywhere, but in a buffer that fits a machine.
variable (hbuf : buf.length ≤ Bytes.maxOffset) (hoffset : offset ≤ Bytes.maxOffset)

include hbuf

theorem Bytes.Covers.size_le (h : buf.Covers offset size) : size ≤ maxOffset := by
  unfold Covers at h
  omega

include hoffset

theorem Bytes.Covers.add_le (h : buf.Covers offset size) : offset + size ≤ maxOffset := by
  unfold Covers at h
  omega

theorem Varint.groupsInWords_comesTo (left : Nat) {read : Nat} (hread : buf.Covers offset read) :
    (groupsInWords buf offset left read).ComesTo
      ((readGroups buf left (offset + read)).map (Prod.map id (read + ·))) := by
  induction left generalizing read with
  | zero => exact comesTo_ofOutcome _
  | succ left ih =>
    have hplace := hread.add_le hbuf hoffset
    rw [groupsInWords, readGroups, Except.map_bind]
    refine .sum_bind hplace (.bind (comesTo_ofOutcome _) fun b hb => ?_)
    have hnext : buf.Covers offset (read + 1) := hread.add (covers_of_readByte hb)
    refine .sum_bind (hnext.size_le hbuf) ?_
    split
    · exact comesTo_pure _
    · rw [Except.map_bind]
      refine (ih hnext).map_bind fun group _ => ?_
      have hsize : read + (group.2 + 1) = read + 1 + group.2 := by omega
      exact comesTo_pure_of_eq (congrArg _ hsize.symm)

theorem Scalar.readInWords_comesTo (s : Scalar) :
    (s.readInWords buf offset).ComesTo (s.read buf offset) := by
  cases s with
  | varint =>
    have hgroups := Varint.groupsInWords_comesTo hbuf hoffset Varint.maxGroups (.inl rfl)
    simp only [Nat.add_zero, Nat.zero_add] at hgroups
    rw [readInWords, read, Varint.read, bind_assoc]
    exact hgroups.map_bind fun _ _ => comesTo_pure _
  | _ => exact comesTo_ofOutcome _

theorem itemsInWords_comesTo {readInWords : Nat → WordReading Decoded}
    {read : Nat → Except ReadError Decoded}
    (hread : ∀ place ≤ Bytes.maxOffset, (readInWords place).ComesTo (read place))
    (hcovers : ∀ place item, read place = .ok item → buf.Covers place item.size) (count : Nat)
    (hsize : buf.Covers offset size) :
    (itemsInWords readInWords offset count size).ComesTo
      ((readItems read count (offset + size)).map (Prod.map id (size + ·))) := by
  -- What has been read is covered by the buffer, which carries the induction and bounds both sums.
  induction count generalizing size with
  | zero => exact comesTo_pure _
  | succ count ih =>
    have hplace := hsize.add_le hbuf hoffset
    rw [itemsInWords, readItems, Except.map_bind]
    refine .sum_bind hplace ((hread _ hplace).bind fun item hi => ?_)
    have hnext : buf.Covers offset (size + item.size) := hsize.add (hcovers _ item hi)
    have hrest := ih hnext
    rw [← Nat.add_assoc] at hrest
    rw [Except.map_bind]
    refine .sum_bind (hnext.size_le hbuf) (hrest.map_bind fun _ _ => ?_)
    exact comesTo_pure_of_eq (congrArg _ (Nat.add_assoc _ _ _))

namespace Codec

theorem fieldsInWords_comesTo {fields : List (String × Codec)}
    (ih : ∀ field ∈ fields, ∀ scope, ∀ place ≤ Bytes.maxOffset,
      (field.2.decodeInWords buf scope place).ComesTo (field.2.decode buf scope place))
    (scope : Scope) (hsize : buf.Covers offset size) (record : Record) :
    (fieldsInWords fields buf scope offset size record).ComesTo
      ((decodeFields fields buf scope (offset + size) record).map (Prod.map id (size + ·))) := by
  induction fields generalizing size record with
  | nil => exact comesTo_pure _
  | cons field rest ihRest =>
    obtain ⟨name, c⟩ := field
    have hplace := hsize.add_le hbuf hoffset
    have hfield := ih (name, c) List.mem_cons_self (record :: scope) _ hplace
    rw [fieldsInWords, decodeFields, Except.map_bind]
    refine .sum_bind hplace ((hfield.within name).bind fun item hi => ?_)
    have hnext : buf.Covers offset (size + item.size) :=
      hsize.add (covers_of_decode (Except.mapError_eq_ok.1 hi))
    have hrest := ihRest (fun field hf => ih field (List.mem_cons_of_mem _ hf)) hnext
      (Table.push record name item.value)
    rw [← Nat.add_assoc] at hrest
    rw [Except.map_bind]
    refine .sum_bind (hnext.size_le hbuf) ?_
    rw [← bind_pure (fieldsInWords _ _ _ _ _ _)]
    refine hrest.map_bind fun _ _ => ?_
    exact comesTo_pure_of_eq (congrArg _ (Nat.add_assoc _ _ _))

private theorem announced_comesTo {count : Codec} {scope : Scope}
    (hcount : (count.decodeInWords buf scope offset).ComesTo (count.decode buf scope offset))
    {f : Decoded → Nat → Nat → WordReading Decoded} {g : Decoded → Nat → Except ReadError Decoded}
    (hf : ∀ announced length, buf.Covers offset announced.size →
      (f announced length (offset + announced.size)).ComesTo (g announced length)) :
    (count.decodeInWords buf scope offset >>= fun announced =>
      ofOutcome (lengthOf announced.value) >>= fun length =>
        sum offset announced.size >>= f announced length).ComesTo
      (count.decode buf scope offset >>= fun announced =>
        lengthOf announced.value >>= g announced) := by
  refine hcount.bind fun announced ha => (comesTo_ofOutcome _).bind fun length _ => ?_
  have hann : buf.Covers offset announced.size := covers_of_decode ha
  exact .sum_bind (hann.add_le hbuf hoffset) (hf announced length hann)

omit hoffset in
/-- No sum is more than a word, wherever decoding starts, and the outcome is that of decoding in numbers. -/
theorem decodeInWords_comesTo {c : Codec} :
    ∀ scope, ∀ offset ≤ Bytes.maxOffset,
      (c.decodeInWords buf scope offset).ComesTo (c.decode buf scope offset) := by
  induction c with
  | scalar p =>
    intro scope offset hoffset
    rw [decodeInWords, decode]
    exact (p.scalar.readInWords_comesTo hbuf hoffset).bind fun _ _ => comesTo_pure _
  | text count ih =>
    intro scope offset hoffset
    rw [decodeInWords, decode]
    refine announced_comesTo hbuf hoffset (ih scope offset hoffset) fun announced length hann => ?_
    refine (comesTo_ofOutcome _).bind fun bs hb => ?_
    have hsize := (hann.add (covers_of_takeCounted hb)).size_le hbuf
    cases Utf8.decode bs with
    | ok s => exact .sum_bind hsize (comesTo_pure _)
    | error fault => exact comesTo_ofOutcome _
  | block length =>
    intro scope offset hoffset
    rw [decodeInWords, decode]
    exact (comesTo_ofOutcome _).bind fun _ _ => comesTo_pure _
  | countedBlock count ih =>
    intro scope offset hoffset
    rw [decodeInWords, decode]
    refine announced_comesTo hbuf hoffset (ih scope offset hoffset) fun announced length hann => ?_
    refine (comesTo_ofOutcome _).bind fun bs hb => ?_
    have hsize := (hann.add (covers_of_takeCounted hb)).size_le hbuf
    exact .sum_bind hsize (comesTo_pure _)
  | option inner ih =>
    intro scope offset hoffset
    rw [decodeInWords, decode]
    refine (comesTo_ofOutcome _).bind fun presence hp => ?_
    have hone := covers_of_takeBytes hp
    split
    · exact comesTo_pure _
    · have hstart := hone.add_le hbuf hoffset
      refine .sum_bind hstart ((ih scope _ hstart).bind fun item hi => ?_)
      have hsize := (hone.add (covers_of_decode hi)).size_le hbuf
      rw [Nat.add_comm] at hsize
      exact .sum_bind hsize (comesTo_pure _)
  | array element length ih =>
    intro scope offset hoffset
    have hitems := itemsInWords_comesTo hbuf hoffset (fun place hplace => ih scope place hplace)
      (fun _ _ => covers_of_decode) length (.inl rfl)
    rw [decodeInWords, decode]
    refine hitems.map_bind fun items _ => ?_
    exact comesTo_pure_of_eq (congrArg _ (Nat.zero_add items.2))
  | countedArray count element ihCount ihElement =>
    intro scope offset hoffset
    rw [decodeInWords, decode]
    refine announced_comesTo hbuf hoffset (ihCount scope offset hoffset)
      fun announced length hann => ?_
    refine (itemsInWords_comesTo hbuf hoffset (fun place hplace => ?_) (fun place item hi => ?_)
      length hann).map_bind fun _ _ => comesTo_pure _
    · exact (ihElement scope place hplace).bind fun _ _ => comesTo_ofOutcome _
    · exact covers_of_decode (decode_of_guarded hi)
  | container fields ih =>
    intro scope offset hoffset
    rw [decodeInWords, decode]
    refine (fieldsInWords_comesTo hbuf hoffset ih scope (.inl rfl) []).map_bind
      fun record _ => ?_
    exact comesTo_pure_of_eq (congrArg _ (Nat.zero_add record.2))
  | switch on branches default size ihBranches ihDefault =>
    intro scope offset hoffset
    rw [decodeInWords_switch, decode_switch]
    cases on.key scope with
    | error fault => exact comesTo_ofOutcome _
    | ok key =>
      exact alternative_of_forall
        (P := fun e => (e.decodeInWords buf scope offset).ComesTo (e.decode buf scope offset))
        (fun branch hb => ihBranches branch hb scope offset hoffset)
        (ihDefault scope offset hoffset) key

end Codec

end Bounds

theorem Parser.drop_of_next {p : Parser} {packet : Packet} (h : p.next.outcome = .ok (some packet)) :
    packet.size ≤ p.pending.length ∧ p.next.parser = p.drop packet.size := by
  cases p.asked with
  | waits hw =>
    rw [hw] at h
    cases h
  | discards cause hd =>
    rw [hd] at h
    cases h
  | takes packet' hd hz =>
    obtain ⟨hout, hparser⟩ := next_of_decode hd hz
    rw [hout] at h
    cases h
    exact ⟨PacketType.size_le_of_decode hd, hparser⟩

namespace Codec

/-- From whatever offset decoding starts, no sum that it forms is more than a word, and what has a size lies
in the buffer. So a parser skips no more than it holds. -/
theorem decode_within_words (c : Codec) {buf : Bytes} {offset : Nat}
    (hbuf : buf.length ≤ Bytes.maxOffset) (hoffset : offset ≤ Bytes.maxOffset) (scope : Scope) :
    (c.decodeInWords buf scope offset).run = some (c.decode buf scope offset) ∧
      (∀ d, c.decode buf scope offset = .ok d → d.size = 0 ∨ offset + d.size ≤ buf.length) ∧
      ∀ (p : Parser) (packet : Packet), p.next.outcome = .ok (some packet) →
        packet.size ≤ p.pending.length ∧ p.next.parser = p.drop packet.size :=
  ⟨decodeInWords_comesTo hbuf scope offset hoffset, fun _ hd => covers_of_decode hd,
    fun _ _ h => Parser.drop_of_next h⟩

theorem message_decode_within_words :
    ([255, 255, 1, 1, 2, 104, 105, 18, 52] : Bytes).length ≤ Bytes.maxOffset ∧
      (message.decodeInWords [255, 255, 1, 1, 2, 104, 105, 18, 52] [] 2).run =
        some (.ok ⟨.record [("kind", .uint 1), ("names", .array [.string "hi"]),
          ("body", .uint 4660)], 7⟩) ∧
      (message.decodeInWords [255, 255, 1, 1, 2, 104, 105, 18, 52] [] Bytes.maxOffset).run =
        some (.error (.incomplete Bytes.maxOffset 9)) := by
  have hbuf : ([255, 255, 1, 1, 2, 104, 105, 18, 52] : Bytes).length ≤ Bytes.maxOffset := by decide
  refine ⟨hbuf, ?_, ?_⟩
  · exact (decode_within_words message hbuf (by decide) []).1.trans rfl
  · exact (decode_within_words message hbuf (Nat.le_refl _) []).1.trans rfl

/-- A length that leads out of all words is refused before it is added to anything. -/
example : (Codec.countedBlock (.scalar .u64)).decodeInWords (List.replicate 8 255) [] 0 =
    ofOutcome (.error (.ofFault (.lengthOverflow 18446744073709551615))) := rfl

end Codec

end PacketCodec
