import PacketCodec.Proofs.Codec.Finality

/-!
# Decoding is local

What is decoded at an offset depends on the bytes from there on only. The same bytes behind other ones give
the same value and the same size, and so they do with more bytes behind them. This is about successes: an
error may name the offset or the length of the whole buffer.
-/

namespace PacketCodec

/-- Two ways of reading have the same results, if either has one. -/
def SameResults {α : Type} (x y : Except ReadError α) : Prop :=
  ∀ a, x = .ok a ↔ y = .ok a

namespace SameResults

variable {α β : Type} {x y : Except ReadError α}

theorem refl (x : Except ReadError α) : SameResults x x :=
  fun _ => Iff.rfl

theorem errors (e e' : ReadError) : SameResults (α := α) (.error e) (.error e') :=
  fun _ => ⟨fun h => (nomatch h), fun h => (nomatch h)⟩

theorem bind {f g : α → Except ReadError β} (h : SameResults x y)
    (hf : ∀ a, x = .ok a → SameResults (f a) (g a)) : SameResults (x >>= f) (y >>= g) := by
  intro b
  rw [Except.bind_eq_ok, Except.bind_eq_ok]
  constructor
  · rintro ⟨a, ha, hb⟩
    exact ⟨a, (h a).1 ha, (hf a ha b).1 hb⟩
  · rintro ⟨a, ha, hb⟩
    have hx := (h a).2 ha
    exact ⟨a, hx, (hf a hx b).2 hb⟩

theorem within (name : String) (h : SameResults x y) :
    SameResults (x.mapError (ReadError.within name)) (y.mapError (ReadError.within name)) := by
  intro a
  rw [Except.mapError_eq_ok, Except.mapError_eq_ok]
  exact h a

end SameResults

section Behind

variable (before buf : Bytes)

private theorem slice?_behind (offset count : Nat) :
    (before ++ buf).slice? (before.length + offset) count = buf.slice? offset count := by
  have hfits : before.length + offset + count ≤ (before ++ buf).length ↔
      offset + count ≤ buf.length := by
    rw [List.length_append]
    omega
  have hdrop : (before ++ buf).drop (before.length + offset) = buf.drop offset := by
    rw [← List.drop_drop, List.drop_left]
  simp only [Bytes.slice?, hfits, hdrop]

theorem takeBytes_behind (offset count : Nat) :
    SameResults (takeBytes buf offset count)
      (takeBytes (before ++ buf) (before.length + offset) count) := by
  unfold takeBytes
  rw [slice?_behind]
  cases buf.slice? offset count with
  | some bs => exact .refl _
  | none => exact .errors _ _

theorem takeCounted_behind (hmax : (before ++ buf).length ≤ Bytes.maxOffset) (offset count : Nat) :
    SameResults (takeCounted buf offset count)
      (takeCounted (before ++ buf) (before.length + offset) count) := by
  intro bs
  rw [takeCounted_eq_ok, takeCounted_eq_ok, ← takeBytes_behind before buf offset count bs]
  refine and_congr_left fun h => ?_
  obtain ⟨pre, post, hbuf, hpre, hbs⟩ := takeBytes_eq_ok.1 h
  have hfits : offset + count ≤ buf.length := by
    simp only [hbuf, List.length_append]
    omega
  rw [List.length_append] at hmax
  constructor <;> intro _ <;> omega

theorem Varint.readByte_behind (offset : Nat) :
    SameResults (readByte buf offset) (readByte (before ++ buf) (before.length + offset)) := by
  unfold readByte
  rw [List.getElem?_append_right (Nat.le_add_right _ _), Nat.add_sub_cancel_left]
  cases buf[offset]? with
  | some b => exact .refl _
  | none => exact .errors _ _

theorem sameResults_alongside (hmax : (before ++ buf).length ≤ Bytes.maxOffset) :
    ReadsAlongside SameResults buf (before ++ buf) (before.length + ·) where
  refl := .refl
  bind := SameResults.bind
  within := SameResults.within
  further offset size := (Nat.add_assoc before.length offset size).symm
  byte := Varint.readByte_behind before buf
  taken := takeBytes_behind before buf
  counted := takeCounted_behind before buf hmax

end Behind

namespace Codec

theorem guardsAlongside_behind (before buf : Bytes) (c : Codec) :
    c.GuardsAlongside SameResults buf (before ++ buf) (before.length + ·) := by
  cases c with
  | countedArray count element =>
    intro scope offset item _ length start
    -- The guard counts the bytes behind the announced number, which are the same ones.
    have hremaining : (before ++ buf).length - (before.length + start) = buf.length - start := by
      rw [List.length_append]
      omega
    rw [hremaining]
    exact .refl _
  | _ => trivial

/-- Bytes in front of a buffer change neither what is decoded from it nor whether anything is. -/
theorem decode_behind (c : Codec) {before buf : Bytes}
    (hmax : (before ++ buf).length ≤ Bytes.maxOffset) (scope : Scope) (offset : Nat) :
    SameResults (c.decode buf scope offset)
      (c.decode (before ++ buf) scope (before.length + offset)) :=
  (sameResults_alongside before buf hmax).decode (.of_forall (guardsAlongside_behind before buf) c)
    scope offset

/-- A value is decoded behind other bytes exactly if it is decoded from its own bytes alone; it lies in these,
and more bytes behind them change nothing. No buffer is longer than the largest offset. -/
theorem decode_local (c : Codec) (scope : Scope) (before bytes after : Bytes)
    (hmax : (before ++ bytes).length ≤ Bytes.maxOffset) (d : Decoded) :
    (c.decode (before ++ bytes) scope before.length = .ok d ↔
        c.decode bytes scope 0 = .ok d) ∧
      (c.decode bytes scope 0 = .ok d →
        d.size ≤ bytes.length ∧
          c.decode (before ++ bytes ++ after) scope before.length = .ok d) := by
  have hiff := c.decode_behind hmax scope 0 d
  rw [Nat.add_zero] at hiff
  refine ⟨hiff.symm, fun h => ⟨?_, ?_⟩⟩
  · rcases covers_of_decode h with hz | hle
    · omega
    · rwa [Nat.zero_add] at hle
  · exact (c.decode_foretells (before ++ bytes) after scope before.length).of_ok (hiff.1 h)

theorem message_decode_local :
    ([255] ++ [1, 1, 2, 97, 98, 0, 7] : Bytes).length ≤ Bytes.maxOffset ∧
      message.decode [1, 1, 2, 97, 98, 0, 7] [] 0 =
        .ok ⟨.record [("kind", .uint 1), ("names", .array [.string "ab"]), ("body", .uint 7)], 7⟩ ∧
      message.decode ([255] ++ [1, 1, 2, 97, 98, 0, 7] ++ [3]) [] 1 =
        .ok ⟨.record [("kind", .uint 1), ("names", .array [.string "ab"]), ("body", .uint 7)], 7⟩ := by
  have hmax : ([255] ++ [1, 1, 2, 97, 98, 0, 7] : Bytes).length ≤ Bytes.maxOffset := by decide
  have hdecode : message.decode [1, 1, 2, 97, 98, 0, 7] [] 0 =
      .ok ⟨.record [("kind", .uint 1), ("names", .array [.string "ab"]), ("body", .uint 7)], 7⟩ := by
    rfl
  exact ⟨hmax, hdecode, ((message.decode_local [] [255] _ [3] hmax _).2 hdecode).2⟩

end Codec

end PacketCodec
