import PacketCodec.Framing.Parser
import PacketCodec.Proofs.Codec.Finality
import PacketCodec.Proofs.Compile.Compiled

/-!
# What a parser discards

A parser discards bytes that are wrong whatever follows, with one exception: an array that announces more
items without bytes than there are bytes behind its count is wrong only until they have arrived.
-/

namespace PacketCodec

/-- Decoding again what was refused, with bytes appended, refuses it again, and so does a parser of any
limit: unless the fault is an array of items without bytes and enough bytes are appended. -/
theorem PacketType.fault_stays {t : PacketType} {buf more : Bytes} {e : DecodeError}
    (hs : e.fault.Stays more.length) :
    (t.decode buf = .error (.invalid e) →
      ∃ e', t.decode (buf ++ more) = .error (.invalid e') ∧ e'.path = e.path ∧
        e.fault.Alike e'.fault) ∧
    ∀ limit, (Parser.next ⟨t, limit, buf⟩).outcome = .error (.discarded buf (.decode e)) →
      ∃ e', (Parser.next ⟨t, limit, buf ++ more⟩).outcome =
          .error (.discarded (buf ++ more) (.decode e')) ∧
        e'.path = e.path ∧ e.fault.Alike e'.fault := by
  have hdecode : Foretells more.length (t.decode buf) (t.decode (buf ++ more)) :=
    (Codec.decode_foretells t.reader buf more [] 0).bind_same
  refine ⟨fun he => hdecode.of_invalid he hs, fun limit hd => ?_⟩
  by_cases hempty : buf = []
  · subst hempty
    cases hd
  have hbuf : buf.isEmpty = false := by simpa using hempty
  have hmore : (buf ++ more).isEmpty = false := by simp [hempty]
  simp only [Parser.next, hbuf, Bool.false_eq_true, if_false] at hd
  split at hd
  · rename_i packet hp
    have hlate := hdecode.of_ok hp
    split at hd
    · rename_i hz
      cases hd
      refine ⟨.here .emptyPacket, ?_, rfl, .same _⟩
      simp [Parser.next, hmore, hlate, hz, Parser.discard]
    · cases hd
  · -- Bytes are missing: what is discarded, if anything, is discarded for the limit.
    split at hd
    · rename_i cause ho
      unfold Parser.overflow? at ho
      split at ho
      · split at ho
        · cases ho
          cases hd
        · cases ho
      · cases ho
    · cases hd
  · rename_i e' hp
    cases hd
    obtain ⟨late, hlate, hpath, halike⟩ := hdecode.of_invalid hp hs
    refine ⟨late, ?_, hpath, halike⟩
    simp [Parser.next, hmore, hlate, Parser.discard]

/-- A number of items without bytes. -/
def Codec.blanks : Codec :=
  .countedArray (.scalar .u8) (.scalar .void)

theorem Codec.blanks_compiled : blanks.Compiled := by
  refine ⟨[], {}, .array (.primitive .void) none (some (.primitive .u8)), .new, ?_⟩
  rw [Registry.compile, Compile.compileIn_countedArray, compileIn, compileIn]
  rfl

theorem Codec.blanks_fault_stays :
    (DecodeFault.zeroWidthItems 3 0).Stays 2 ∧
      (PacketType.ofCodec blanks).decode [3] = .error (.invalid (.here (.zeroWidthItems 3 0))) ∧
      (∃ e, (PacketType.ofCodec blanks).decode [3, 7, 7] = .error (.invalid e)) ∧
      (Parser.next ⟨.ofCodec blanks, some 9, [3]⟩).outcome =
        .error (.discarded [3] (.decode (.here (.zeroWidthItems 3 0)))) ∧
      ∃ e, (Parser.next ⟨.ofCodec blanks, some 9, [3, 7, 7]⟩).outcome =
        .error (.discarded [3, 7, 7] (.decode e)) := by
  have hs : (DecodeFault.zeroWidthItems 3 0).Stays 2 := by
    change 0 + 2 < 3
    decide
  have hstays := @PacketType.fault_stays (.ofCodec blanks) [3] [7, 7] (.here (.zeroWidthItems 3 0)) hs
  obtain ⟨e, he, _⟩ := hstays.1 rfl
  obtain ⟨e', he', _⟩ := hstays.2 (some 9) rfl
  exact ⟨hs, rfl, ⟨e, he⟩, rfl, e', he'⟩

/-- A fault need not be final: three items without bytes are refused, and discarded, when nothing follows
their count, but are a packet when three bytes do. -/
theorem Codec.blanks_completed_by_more :
    blanks.Compiled ∧
      (PacketType.ofCodec blanks).decode [3] = .error (.invalid (.here (.zeroWidthItems 3 0))) ∧
      (Parser.next ⟨.ofCodec blanks, none, [3]⟩).outcome =
        .error (.discarded [3] (.decode (.here (.zeroWidthItems 3 0)))) ∧
      (PacketType.ofCodec blanks).decode ([3] ++ [7, 7, 7]) =
        .ok ⟨.array [.null, .null, .null], 1⟩ ∧
      ¬ ∀ c : Codec, c.Compiled → ∀ buf more e,
        (PacketType.ofCodec c).decode buf = .error (.invalid e) →
          ∃ e', (PacketType.ofCodec c).decode (buf ++ more) = .error e' := by
  refine ⟨blanks_compiled, rfl, rfl, rfl, fun h => ?_⟩
  obtain ⟨e', he⟩ := h blanks blanks_compiled [3] [7, 7, 7] _ rfl
  cases he

end PacketCodec
