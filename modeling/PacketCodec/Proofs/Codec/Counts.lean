import PacketCodec.Proofs.Codec.Extension

/-!
# Counts that are announced

What announces the number of items of an array may announce any number of 64 bits. Items are read as far as
there are bytes for them: an item without bytes is let through only while no more items are announced than
bytes are left, and any other item uses bytes up. Here the items of an array are read with a tally of how often
the decoder of an item is called.
-/

namespace PacketCodec

/-- A reading that keeps a tally. What was tallied stays when it fails. -/
abbrev TalliedReading (α : Type) := ExceptT ReadError (StateM Nat) α

namespace TalliedReading

variable {α β : Type}

def ofOutcome (outcome : Except ReadError α) : TalliedReading α := ExceptT.mk fun tally => (outcome, tally)

/-- The outcome of a call that is tallied. -/
def ofCall (outcome : Except ReadError α) : TalliedReading α := ExceptT.mk fun tally => (outcome, tally + 1)

/-- The reading has an outcome, and adds no more to the tally than a bound. -/
def CallsAtMost (x : TalliedReading α) (outcome : Except ReadError α) (bound : Nat) : Prop :=
  ∀ tally, (x.run.run tally).1 = outcome ∧ (x.run.run tally).2 ≤ tally + bound

variable {x : TalliedReading α} {y : Except ReadError α} {m n : Nat}

theorem callsAtMost_ofOutcome (y : Except ReadError α) : (ofOutcome y).CallsAtMost y 0 :=
  fun _ => ⟨rfl, Nat.le_refl _⟩

theorem callsAtMost_ofCall (y : Except ReadError α) : (ofCall y).CallsAtMost y 1 :=
  fun _ => ⟨rfl, Nat.le_refl _⟩

theorem callsAtMost_pure (a : α) : (pure a : TalliedReading α).CallsAtMost (.ok a) 0 :=
  fun _ => ⟨rfl, Nat.le_refl _⟩

namespace CallsAtMost

theorem mono (h : x.CallsAtMost y m) (hle : m ≤ n) : x.CallsAtMost y n :=
  fun tally => ⟨(h tally).1, Nat.le_trans (h tally).2 (Nat.add_le_add_left hle tally)⟩

theorem bind {f : α → TalliedReading β} {g : α → Except ReadError β} (h : x.CallsAtMost y m)
    (hf : ∀ a, y = .ok a → (f a).CallsAtMost (g a) n) : (x >>= f).CallsAtMost (y >>= g) (m + n) := by
  intro tally
  obtain ⟨hy, hm⟩ := h tally
  have hrun : (x >>= f).run.run tally =
      (ExceptT.bindCont f (x.run.run tally).1).run (x.run.run tally).2 := rfl
  rw [hrun, hy]
  cases y with
  | error e => exact ⟨rfl, Nat.le_trans hm (by omega)⟩
  | ok a =>
    obtain ⟨hg, hn⟩ := hf a rfl (x.run.run tally).2
    exact ⟨hg, Nat.le_trans hn (by omega)⟩

theorem map {f : α → β} (h : x.CallsAtMost y m) :
    (x >>= fun a => pure (f a)).CallsAtMost (y >>= fun a => .ok (f a)) m :=
  h.bind fun a _ => callsAtMost_pure (f a)

theorem ofOutcome_bind {f : α → TalliedReading β} {g : α → Except ReadError β}
    (hf : ∀ a, y = .ok a → (f a).CallsAtMost (g a) n) :
    (ofOutcome y >>= f).CallsAtMost (y >>= g) n := by
  cases y with
  | error e => exact fun tally => ⟨rfl, Nat.le_add_right tally n⟩
  | ok a => exact hf a rfl

end CallsAtMost

end TalliedReading

open TalliedReading

/-- Reads `count` items one after the other from an offset on. -/
def itemsTallied (read : Nat → TalliedReading Decoded) :
    Nat → Nat → TalliedReading (List Value × Nat)
  | 0, _ => return ([], 0)
  | count + 1, offset => do
    let item ← read offset
    let (items, size) ← itemsTallied read count (offset + item.size)
    return (item.value :: items, item.size + size)

/-- The array of items whose number is announced at an offset, with each call of the decoder of an item
tallied, whatever comes of it. -/
def Codec.countedArrayTallied (count element : Codec) (buf : Bytes) (scope : Scope) (offset : Nat) :
    TalliedReading Decoded := do
  let announced ← ofOutcome (count.decode buf scope offset)
  let length ← ofOutcome (lengthOf announced.value)
  let start := offset + announced.size
  let remaining := buf.length - start
  let (items, size) ← itemsTallied (fun place => do
    let item ← ofCall (element.decode buf scope place)
    ofOutcome (guardZeroWidth length remaining item)) length start
  return ⟨.array items, announced.size + size⟩

section Items

variable {tallied : Nat → TalliedReading Decoded} {read : Nat → Except ReadError Decoded}

theorem itemsTallied_le_count (hcall : ∀ place, (tallied place).CallsAtMost (read place) 1)
    (count offset : Nat) :
    (itemsTallied tallied count offset).CallsAtMost (readItems read count offset) count := by
  induction count generalizing offset with
  | zero => exact callsAtMost_pure _
  | succ count ih =>
    have hall := (hcall offset).bind fun item _ =>
      (ih (offset + item.size)).map (f := fun r => (item.value :: r.1, item.size + r.2))
    rw [Nat.add_comm] at hall
    exact hall

/-- Each item takes bytes, and they lie in front of `limit`. -/
def FillsUpTo (limit : Nat) (read : Nat → Except ReadError Decoded) : Prop :=
  ∀ place item, read place = .ok item → 0 < item.size ∧ place + item.size ≤ limit

theorem itemsTallied_le_room {limit : Nat} (hfills : FillsUpTo limit read)
    (hcall : ∀ place, (tallied place).CallsAtMost (read place) 1) (count offset : Nat) :
    (itemsTallied tallied count offset).CallsAtMost (readItems read count offset)
      (limit - offset + 1) := by
  induction count generalizing offset with
  | zero => exact (callsAtMost_pure _).mono (Nat.zero_le _)
  | succ count ih =>
    have hrest (item : Decoded) (hi : read offset = .ok item) :
        (itemsTallied tallied count (offset + item.size)).CallsAtMost
          (readItems read count (offset + item.size)) (limit - offset) := by
      obtain ⟨hpos, hle⟩ := hfills offset item hi
      exact (ih (offset + item.size)).mono (by omega)
    have hall := (hcall offset).bind fun item hi =>
      (hrest item hi).map (f := fun r => (item.value :: r.1, item.size + r.2))
    rw [Nat.add_comm] at hall
    exact hall

theorem length_of_readItems {count offset size : Nat} {values : List Value}
    (h : readItems read count offset = .ok (values, size)) : values.length = count := by
  induction count generalizing offset values size with
  | zero =>
    cases h
    rfl
  | succ count ih =>
    obtain ⟨item, rest, size', _, hr, rfl, _⟩ := readItems_succ_eq_ok.1 h
    exact congrArg Nat.succ (ih hr)

theorem FillsUpTo.count_le {limit count offset size : Nat} {values : List Value}
    (hfills : FillsUpTo limit read) (h : readItems read count offset = .ok (values, size)) :
    count ≤ limit - offset := by
  induction count generalizing offset values size with
  | zero => exact Nat.zero_le _
  | succ count ih =>
    obtain ⟨item, rest, size', hi, hr, _⟩ := readItems_succ_eq_ok.1 h
    have hpos := hfills offset item hi
    have hrest := ih hr
    omega

end Items

namespace Codec

variable {count element : Codec} {buf : Bytes} {scope : Scope} {offset : Nat}

theorem fillsUpTo_of_lt {length remaining : Nat} (hlt : remaining < length) :
    FillsUpTo buf.length fun place =>
      element.decode buf scope place >>= guardZeroWidth length remaining := by
  intro place item h
  obtain ⟨item', hi, hg⟩ := Except.bind_eq_ok.1 h
  obtain rfl := guardZeroWidth_eq_ok hg
  have hne : item.size ≠ 0 := by
    intro hzero
    rw [guardZeroWidth, if_pos ⟨hzero, hlt⟩] at hg
    cases hg
  exact ⟨Nat.pos_of_ne_zero hne, (covers_of_decode hi).resolve_left hne⟩

theorem length_le_remaining {length start size : Nat} {values : List Value}
    (h : readItems (fun place => element.decode buf scope place >>=
      guardZeroWidth length (buf.length - start)) length start = .ok (values, size)) :
    length ≤ buf.length - start := by
  rcases Nat.lt_or_ge (buf.length - start) length with hlt | hle
  · exact (fillsUpTo_of_lt hlt).count_le h
  · exact hle

/-- With the calls for its items tallied, an array comes to what it is decoded to. -/
theorem countedArrayTallied_callsAtMost (element : Codec) {bound : Nat}
    (hbound : ∀ announced, count.decode buf scope offset = .ok announced →
      buf.length - (offset + announced.size) < bound) :
    (countedArrayTallied count element buf scope offset).CallsAtMost
      ((countedArray count element).decode buf scope offset) bound := by
  apply CallsAtMost.ofOutcome_bind
  intro announced ha
  apply CallsAtMost.ofOutcome_bind
  intro length _
  have hlt := hbound announced ha
  apply CallsAtMost.map
  have hcall (place : Nat) : (ofCall (element.decode buf scope place) >>= fun item =>
      ofOutcome (guardZeroWidth length (buf.length - (offset + announced.size)) item)).CallsAtMost
        (element.decode buf scope place >>=
          guardZeroWidth length (buf.length - (offset + announced.size))) 1 :=
    (callsAtMost_ofCall _).bind fun _ _ => callsAtMost_ofOutcome _
  by_cases hle : length ≤ buf.length - (offset + announced.size)
  · exact (itemsTallied_le_count hcall length _).mono (by omega)
  · exact (itemsTallied_le_room (fillsUpTo_of_lt (by omega)) hcall length _).mono hlt

/-- A count that was announced cannot outrun the buffer. An array has as many items as were announced, and
they are no more than there are bytes behind the count; and whatever number was announced, the decoder of an
item is called at most once more than there are such bytes, and not at all if no number was. -/
theorem announced_within_buffer (count element : Codec) (buf : Bytes) (scope : Scope) (offset : Nat) :
    (∀ d, (countedArray count element).decode buf scope offset = .ok d →
      ∃ announced items, count.decode buf scope offset = .ok announced ∧
        lengthOf announced.value = .ok items.length ∧ d.value = .array items ∧
        items.length ≤ buf.length - (offset + announced.size)) ∧
    ∃ calls, (countedArrayTallied count element buf scope offset).run.run 0 =
        ((countedArray count element).decode buf scope offset, calls) ∧
      (∀ announced, count.decode buf scope offset = .ok announced →
        calls ≤ buf.length - (offset + announced.size) + 1) ∧
      (∀ e, count.decode buf scope offset = .error e → calls = 0) := by
  refine ⟨fun d h => ?_, _, Prod.ext ?_ rfl, ?_, ?_⟩
  · obtain ⟨announced, length, items, size, ha, hl, hr, rfl⟩ := decode_countedArray_eq_ok.1 h
    obtain rfl := length_of_readItems hr
    exact ⟨announced, items, ha, hl, rfl, length_le_remaining hr⟩
  · have hall : ∀ announced, count.decode buf scope offset = .ok announced →
        buf.length - (offset + announced.size) < buf.length + 1 := by
      intro announced _
      omega
    exact (countedArrayTallied_callsAtMost element hall 0).1
  · intro announced ha
    have hone : ∀ announced', count.decode buf scope offset = .ok announced' →
        buf.length - (offset + announced'.size) < buf.length - (offset + announced.size) + 1 := by
      intro announced' ha'
      cases ha.symm.trans ha'
      exact Nat.lt_succ_self _
    have hcalls := (countedArrayTallied_callsAtMost element hone 0).2
    rwa [Nat.zero_add] at hcalls
  · intro e he
    have hnone : ∀ announced, count.decode buf scope offset = .ok announced →
        buf.length - (offset + announced.size) < 0 := by
      intro announced ha
      cases he.symm.trans ha
    exact Nat.le_zero.1 (countedArrayTallied_callsAtMost element hnone 0).2

/-- Two bytes behind a count of 255 bring about three calls, of which the last finds no byte. -/
example : (countedArrayTallied (.scalar .u8) (.scalar .u8) [255, 7, 7] [] 0).run.run 0 =
    (.error (.incomplete 4 3), 3) := rfl

end Codec

end PacketCodec
