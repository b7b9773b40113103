import PacketCodec.Proofs.Codec.Extension

/-!
# What more bytes can mend

Bytes that are appended change nothing about what was decoded, and of the errors, apart from missing
bytes, only one: that an array announces more items without bytes than there are bytes behind its count.
That error, too, stays until as many bytes are there.
-/

namespace PacketCodec

/-- A fault is bound to stay when `more` bytes are appended. -/
def DecodeFault.Stays (more : Nat) : DecodeFault → Prop
  | .zeroWidthItems count remaining => remaining + more < count
  | _ => True

/-- One fault is another one, or both are the refusal of the same number of items without bytes. -/
inductive DecodeFault.Alike : DecodeFault → DecodeFault → Prop
  | same (fault : DecodeFault) : Alike fault fault
  | items (count remaining remaining' : Nat) :
      Alike (.zeroWidthItems count remaining) (.zeroWidthItems count remaining')

/-- The outcome of reading tells the one of reading `more` bytes in addition: it is the same, unless
bytes were missing or a fault was not bound to stay. -/
inductive Foretells {α : Type} (more : Nat) : Except ReadError α → Except ReadError α → Prop
  | anticipates {early late : Except ReadError α} (h : Anticipates early late) :
      Foretells more early late
  | outruns (path : List String) (count remaining : Nat) {late : Except ReadError α}
      (h : remaining + more < count →
        ∃ remaining', late = .error (.invalid ⟨path, .zeroWidthItems count remaining'⟩)) :
      Foretells more (.error (.invalid ⟨path, .zeroWidthItems count remaining⟩)) late

namespace Foretells

variable {α β : Type} {more : Nat} {early late : Except ReadError α}

theorem agrees (outcome : Except ReadError α) : Foretells more outcome outcome :=
  .anticipates (.agrees outcome)

theorem bind {f g : α → Except ReadError β} (h : Foretells more early late)
    (hf : ∀ a, early = .ok a → Foretells more (f a) (g a)) :
    Foretells more (early >>= f) (late >>= g) := by
  cases h with
  | anticipates h =>
    cases h with
    | waits needed available => exact .anticipates (.waits needed available _)
    | agrees =>
      cases early with
      | error e => exact .agrees _
      | ok a => exact hf a rfl
  | outruns path count remaining h =>
    refine .outruns path count remaining fun hlt => ?_
    obtain ⟨remaining', rfl⟩ := h hlt
    exact ⟨remaining', rfl⟩

theorem bind_same {f : α → Except ReadError β} (h : Foretells more early late) :
    Foretells more (early >>= f) (late >>= f) :=
  h.bind fun _ _ => .agrees _

theorem within (name : String) (h : Foretells more early late) :
    Foretells more (early.mapError (ReadError.within name))
      (late.mapError (ReadError.within name)) := by
  cases h with
  | anticipates h => exact .anticipates (h.within name)
  | outruns path count remaining h =>
    refine .outruns (name :: path) count remaining fun hlt => ?_
    obtain ⟨remaining', rfl⟩ := h hlt
    exact ⟨remaining', rfl⟩

theorem of_ok {a : α} (h : Foretells more early late) (ha : early = .ok a) : late = .ok a := by
  subst ha
  cases h with
  | anticipates h =>
    cases h
    rfl

theorem of_invalid {e : DecodeError} (h : Foretells more early late) (he : early = .error (.invalid e))
    (hs : e.fault.Stays more) :
    ∃ e', late = .error (.invalid e') ∧ e'.path = e.path ∧ e.fault.Alike e'.fault := by
  subst he
  cases h with
  | anticipates h =>
    cases h
    exact ⟨e, rfl, rfl, .same e.fault⟩
  | outruns path count remaining h =>
    obtain ⟨remaining', rfl⟩ := h hs
    exact ⟨_, rfl, rfl, .items count remaining remaining'⟩

end Foretells

theorem guardZeroWidth_foretells {more remaining remaining' : Nat} (hle : remaining ≤ remaining')
    (hmore : remaining' ≤ remaining + more) (count : Nat) (item : Decoded) :
    Foretells more (guardZeroWidth count remaining item) (guardZeroWidth count remaining' item) := by
  -- An item without bytes that was let through is let through when there are more bytes, and one that was
  -- refused is refused until there are as many bytes as items.
  by_cases hguard : item.size = 0 ∧ remaining < count
  · have hearly : guardZeroWidth count remaining item =
        .error (.ofFault (.zeroWidthItems count remaining)) := if_pos hguard
    rw [hearly]
    refine .outruns [] count remaining fun hlt => ⟨remaining', ?_⟩
    exact if_pos ⟨hguard.1, by omega⟩
  · have hlate : ¬ (item.size = 0 ∧ remaining' < count) := fun h => hguard ⟨h.1, by omega⟩
    rw [guardZeroWidth, if_neg hguard, guardZeroWidth, if_neg hlate]
    exact .agrees _

theorem foretells_alongside (buf more : Bytes) :
    ReadsAlongside (Foretells more.length) buf (buf ++ more) id where
  refl := .agrees
  bind := Foretells.bind
  within := Foretells.within
  further _ _ := rfl
  byte offset := .anticipates (Varint.readByte_anticipates buf more offset)
  taken offset count := .anticipates (takeBytes_anticipates buf more offset count)
  counted offset count := .anticipates (takeCounted_anticipates buf more offset count)

namespace Codec

theorem guardsAlongside_foretells (buf more : Bytes) (c : Codec) :
    c.GuardsAlongside (Foretells more.length) buf (buf ++ more) id := by
  cases c with
  | countedArray count element =>
    intro scope offset item _ length start
    -- The guard compares with the bytes behind the count, of which there are more later on.
    have hle : buf.length - start ≤ (buf ++ more).length - start := by
      rw [List.length_append]
      omega
    have hmore : (buf ++ more).length - start ≤ buf.length - start + more.length := by
      rw [List.length_append]
      omega
    exact guardZeroWidth_foretells hle hmore length item
  | _ => trivial

/-- What decoding comes to tells what it comes to when bytes are appended. -/
theorem decode_foretells (c : Codec) (buf more : Bytes) :
    ∀ scope offset, Foretells more.length (c.decode buf scope offset)
      (c.decode (buf ++ more) scope offset) :=
  (foretells_alongside buf more).decode (.of_forall (guardsAlongside_foretells buf more) c)

end Codec

end PacketCodec
