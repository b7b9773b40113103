import PacketCodec.Proofs.Codec.Inversion
import PacketCodec.Proofs.Codec.Measure
import PacketCodec.Proofs.Compile.Becomes

/-!
# Fixed sizes

Where a codec alone tells the size of its values, measuring, encoding and decoding all come to that size. A
switch tells it for whatever branch is chosen. Therefore the items of an array may be counted in place of adding
up their sizes, once each of them has been checked.
-/

namespace PacketCodec

theorem Scalar.size_eq_fixedSize_of_read {s : Scalar} {buf : Bytes} {offset n size : Nat}
    {value : Value} (hs : s.fixedSize = some n) (h : s.read buf offset = .ok (value, size)) :
    size = n := by
  cases s with
  | varint => cases hs
  | void =>
    cases h
    exact Option.some.inj hs
  | _ =>
    obtain ⟨bs, _, h⟩ := Except.bind_eq_ok.1 h
    cases h
    exact Option.some.inj hs

namespace Codec

/-- Whatever branch a switch chooses, what it decodes has the size that the switch keeps. -/
theorem size_eq_fixedSize_of_decode {c : Codec} (h : c.Everywhere WellBuilt) {n : Nat}
    (hn : c.fixedSize = some n) {buf : Bytes} :
    ∀ {scope offset d}, c.decode buf scope offset = .ok d → d.size = n := by
  induction c with
  | scalar p =>
    intro scope offset d hd
    exact Scalar.size_eq_fixedSize_of_read hn (decode_scalar_eq_ok.1 hd)
  | switch on branches default size ihBranches ihDefault =>
    intro scope offset d hd
    have hsize : size = commonSize branches default := h.self
    obtain ⟨key, _, hd⟩ := decode_switch_eq_ok.1 hd
    have hfixed := fixedSize_alternative (hsize.symm.trans hn) key
    exact alternative_of_forall
      (P := fun e => e.Everywhere WellBuilt → e.fixedSize = some n →
        e.decode buf scope offset = .ok d → d.size = n)
      (fun branch hb hw he => ihBranches branch hb hw he) (fun hw he => ihDefault hw he) key
      (h.alternative key) hfixed hd
  | _ => cases hn

theorem stop_eq_of_encode {c : Codec} (h : c.Everywhere WellBuilt) {n : Nat}
    (hn : c.fixedSize = some n) {scope : Scope} {value : Value} {dest : Bytes} {offset stop : Nat}
    (he : (c.encode scope value dest offset).outcome = .ok stop) : stop = offset + n := by
  obtain ⟨m, hm, rfl⟩ := Emission.size_of_place he
  have hmeasure : c.measure scope value = .ok m := (measure_eq_size h scope value).trans hm
  rw [measure_eq_fixedSize hn hmeasure]

/-- The size that a compiled codec tells is exact: every value that is measured has it, every value that
is encoded is written into so many bytes and every value that is decoded was read from so many. So an array is
measured as if the sizes of its items were added up one by one, with the same errors. -/
theorem Compiled.fixedSize_exact {c : Codec} (h : c.Compiled) (scope : Scope) :
    (∀ n, c.fixedSize = some n →
      (∀ value m, c.measure scope value = .ok m → m = n) ∧
      (∀ value dest offset stop,
        (c.encode scope value dest offset).outcome = .ok stop → stop = offset + n) ∧
      (∀ buf offset d, c.decode buf scope offset = .ok d → d.size = n)) ∧
    (∀ element length, c = .array element length → ∀ value,
      c.measure scope value = (do
        let items ← checked (expectItems (some length) value)
        sumSizes (fun item => element.measure scope item) items)) ∧
    (∀ count element, c = .countedArray count element → ∀ value,
      c.measure scope value = (do
        let items ← checked (expectItems none value)
        let n ← checked (countValue items.length)
        let size ← count.measure scope n
        let sizes ← sumSizes (fun item => element.measure scope item) items
        return size + sizes)) := by
  refine ⟨fun n hn => ⟨?_, ?_, ?_⟩, ?_, ?_⟩
  · exact fun value m hm => measure_eq_fixedSize hn hm
  · exact fun value dest offset stop he => stop_eq_of_encode h.wellBuilt hn he
  · exact fun buf offset d hd => size_eq_fixedSize_of_decode h.wellBuilt hn hd
  · rintro element length rfl value
    simp only [measure, itemsSize_elements]
  · rintro count element rfl value
    simp only [measure, itemsSize_elements]

/-- A reading of two bytes, signed unless its unit is 1. -/
def gauge : Codec :=
  .ofBranches (.field "unit") [("1", .scalar .u16)] (.scalar .li16)

/-- Counted readings, whose type is registered under a name. -/
def gauges : Codec :=
  .countedArray (.scalar .u8) gauge

private def gaugeSchema : Schema :=
  .switch (.field "unit") [("0x1", .primitive .u16)] (some (.primitive .li16))

private theorem gauge_becomes (reg : Registry) : gaugeSchema.Becomes reg gauge := by
  have hu16 : (Schema.primitive .u16).Becomes reg (.scalar .u16) := .of_layer .primitive
  have hli16 : (Schema.primitive .li16).Becomes reg (.scalar .li16) := .of_layer .primitive
  exact .of_layer (.switch (by decide) (.cons ⟨rfl, hu16⟩ .nil) hli16)

theorem gauge_compiled : gauge.Compiled :=
  ⟨[], {}, gaugeSchema, .new, (Registry.compile_eq_ok_iff .new).2 (gauge_becomes [])⟩

theorem gauges_compiled : gauges.Compiled := by
  let reg : Registry := [("gauge", gaugeSchema)]
  have hcount : (Schema.primitive .u8).Becomes reg (.scalar .u8) := .of_layer .primitive
  have hgauge : (Schema.ref "gauge").Becomes reg gauge :=
    .of_layer (.registered rfl (gauge_becomes reg))
  refine ⟨reg, {}, .array (.ref "gauge") none (some (.primitive .u8)), .new, ?_⟩
  exact (Registry.compile_eq_ok_iff .new).2 (.of_layer (.countedArray hcount hgauge))

theorem gauges_fixedSize_exact :
    gauge.Compiled ∧ gauge.fixedSize = some 2 ∧
      (∀ value m, gauge.measure [[("unit", .int 2)]] value = .ok m → m = 2) ∧
      gauge.decode [7, 255, 255] [[("unit", .int 2)]] 1 = .ok ⟨.int (-1), 2⟩ ∧
      (∀ buf offset d, gauge.decode buf [[("unit", .int 2)]] offset = .ok d → d.size = 2) ∧
      gauges.Compiled ∧
      gauges.measure [[("unit", .int 1)]] (.array [.uint 5, .uint 6]) = .ok 5 ∧
      gauges.measure [[("unit", .int 1)]] (.array [.uint 5, .null, .bool true]) =
        .error (.here (.expectedNatural "u16" .null)) := by
  have hfixed : gauge.fixedSize = some 2 := rfl
  obtain ⟨hmeasure, _, hdecode⟩ :=
    (Compiled.fixedSize_exact gauge_compiled [[("unit", .int 2)]]).1 2 hfixed
  have hsum := (Compiled.fixedSize_exact gauges_compiled [[("unit", .int 1)]]).2.2 _ _ rfl
  refine ⟨gauge_compiled, hfixed, hmeasure, rfl, hdecode, gauges_compiled, ?_, ?_⟩
  · exact (hsum _).trans rfl
  · exact (hsum _).trans rfl

end Codec

end PacketCodec
