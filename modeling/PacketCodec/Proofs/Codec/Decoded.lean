import PacketCodec.Proofs.Codec.Inversion
import PacketCodec.Proofs.Codec.Measure
import PacketCodec.Proofs.Scope

/-!
# Encoding what was decoded

What decoding hands on is what encoding looks up: the values of fields in the record that they have grown
into, and a length in place of the count that announced it.
-/

namespace PacketCodec

theorem fieldValue_of_push {before record : Record} {name : String} {value : Value}
    (hfresh : name ∉ Table.names before) (h : Table.push before name value <+: record) :
    fieldValue record name = value := by
  have hget : Table.get? (Table.push before name value) name = some value := by
    rw [Table.push, Table.get?_append, (Table.get?_eq_none_iff before name).2 hfresh]
    simp
  rw [fieldValue, Table.get?_of_prefix h hget]
  rfl

namespace Codec

theorem prefix_of_decodeFields {fields : List (String × Codec)} {buf : Bytes} {scope : Scope}
    {offset size : Nat} {before record : Record}
    (h : decodeFields fields buf scope offset before = .ok (record, size)) : before <+: record := by
  induction fields generalizing offset before size with
  | nil =>
    cases h
    exact List.prefix_rfl
  | cons field rest ih =>
    obtain ⟨item, size', _, hr, _⟩ := decodeFields_cons_eq_ok.1 h
    exact (List.prefix_append before _).trans (ih hr)

theorem names_of_decodeFields {fields : List (String × Codec)} {buf : Bytes} {scope : Scope}
    {offset size : Nat} {before record : Record}
    (h : decodeFields fields buf scope offset before = .ok (record, size)) :
    Table.names record = Table.names before ++ Table.names fields := by
  induction fields generalizing offset before size with
  | nil =>
    cases h
    exact (List.append_nil _).symm
  | cons field rest ih =>
    obtain ⟨item, size', _, hr, _⟩ := decodeFields_cons_eq_ok.1 h
    rw [ih hr]
    simp [Table.names, Table.push]

theorem nodup_and_fieldValue {before record : Record} {name : String} {c : Codec}
    {rest : List (String × Codec)} {value : Value}
    (hn : (Table.names before ++ Table.names ((name, c) :: rest)).Nodup)
    (h : Table.push before name value <+: record) :
    (Table.names (Table.push before name value) ++ Table.names rest).Nodup ∧
      fieldValue record name = value := by
  refine ⟨by simpa [Table.names, Table.push] using hn, fieldValue_of_push (fun hm => ?_) h⟩
  exact (List.nodup_append.1 hn).2.2 name hm name List.mem_cons_self rfl

private theorem emit_uint_eq_emit_int {i : Int64} {u : UInt64} (hu : i.toInt = u.toNat) (c : Codec)
    (scope : Scope) (h : (c.emit scope (.int i)).failure = none) :
    c.emit scope (.uint u) = c.emit scope (.int i) := by
  induction c with
  | scalar p =>
    rw [emit] at h
    rw [emit, emit]
    cases he : p.scalar.encode p.name (.int i) with
    | error fault =>
      rw [he] at h
      cases h
    | ok bs => rw [Scalar.encode_uint_of_encode_int hu he]
  | option inner ih => exact congrArg (Emission.append (.piece [1])) (ih h)
  | switch on branches default size ihBranches ihDefault =>
    rw [emit_switch] at h
    rw [emit_switch, emit_switch]
    cases hk : on.key scope with
    | error fault =>
      rw [hk] at h
      cases h
    | ok key =>
      rw [hk] at h
      exact alternative_of_forall
        (P := fun d => (d.emit scope (.int i)).failure = none →
          d.emit scope (.uint u) = d.emit scope (.int i))
        (fun branch hb => ihBranches branch hb) ihDefault key h
  | _ => cases h

private theorem eq_toNat_of_asNat? {value : Value} {n : Nat} (h : value.asNat? = some n) :
    ∃ u : UInt64, n = u.toNat ∧
      (value = .uint u ∨ ∃ i : Int64, value = .int i ∧ i.toInt = u.toNat) := by
  cases value with
  | uint u =>
    cases h
    exact ⟨u, rfl, .inl rfl⟩
  | int i =>
    simp only [Value.asNat?] at h
    split at h
    · cases h
      have hlt := i.toInt_lt
      have hu : (UInt64.ofNat i.toInt.toNat).toNat = i.toInt.toNat :=
        UInt64.toNat_ofNat_of_lt' (by change _ < 2 ^ 64; omega)
      exact ⟨UInt64.ofNat i.toInt.toNat, hu.symm, .inr ⟨i, rfl, by omega⟩⟩
    · cases h
  | _ => cases h

theorem emit_countValue {count : Codec} {scope : Scope} {value : Value} {length : Nat}
    (hl : lengthOf value = .ok length) (h : (count.emit scope value).failure = none) :
    (Emission.ofExcept (countValue length) fun v => count.emit scope v) = count.emit scope value := by
  obtain ⟨u, rfl, hvalue⟩ := eq_toNat_of_asNat? (lengthOf_eq_ok.1 hl)
  have hcount : countValue u.toNat = .ok (.uint u) := by
    have hlt := u.toNat_lt
    simp only [countValue, Value.ofNat?]
    rw [if_pos hlt, UInt64.ofNat_toNat]
  rw [hcount]
  rcases hvalue with rfl | ⟨i, rfl, hi⟩
  · rfl
  · exact emit_uint_eq_emit_int hi count scope h

end Codec

end PacketCodec
