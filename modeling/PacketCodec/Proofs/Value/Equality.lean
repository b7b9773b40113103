import Mathlib.Data.List.Forall2
import PacketCodec.Codec.Basic

/-!
# Equal values

Arrays and records are equal entry by entry, and an integer is equal to what either signedness makes of
its number. Equal values are spelled as the same branch key.
-/

namespace PacketCodec

/-- Two records have the same names in the same order, and equal values under them. -/
def Record.Equals : Record → Record → Prop :=
  List.Forall₂ fun f f' => f.1 = f'.1 ∧ (f.2 == f'.2) = true

namespace Value

theorem beq_array_iff {items items' : List Value} :
    (Value.array items == .array items') = true ↔
      List.Forall₂ (fun w v => (w == v) = true) items items' := by
  change beqItems items items' = true ↔ _
  induction items generalizing items' with
  | nil => cases items' <;> simp [beqItems]
  | cons item rest ih =>
    cases items' with
    | nil => simp [beqItems]
    | cons item' rest' =>
      rw [beqItems, Bool.and_eq_true, ih, List.forall₂_cons]
      exact Iff.rfl

theorem beq_record_iff {fields fields' : Record} :
    (Value.record fields == .record fields') = true ↔ Record.Equals fields fields' := by
  change beqFields fields fields' = true ↔
    List.Forall₂ (fun f f' => f.1 = f'.1 ∧ (f.2 == f'.2) = true) fields fields'
  induction fields generalizing fields' with
  | nil => cases fields' <;> simp [beqFields]
  | cons field rest ih =>
    cases fields' with
    | nil => simp [beqFields]
    | cons field' rest' =>
      obtain ⟨name, w⟩ := field
      obtain ⟨name', v⟩ := field'
      rw [beqFields, Bool.and_eq_true, Bool.and_eq_true, beq_iff_eq, ih, List.forall₂_cons]
      exact Iff.rfl

theorem beq_of_asNat? {v : Value} {n : Nat} (h : v.asNat? = some n) :
    (Value.uint (UInt64.ofNat n) == v) = true := by
  cases v with
  | uint u =>
    cases h
    change (UInt64.ofNat u.toNat == u) = true
    rw [UInt64.ofNat_toNat, beq_self_eq_true]
  | int i =>
    simp only [asNat?] at h
    split at h
    · cases h
      have hlt := i.toInt_lt
      have hn : (UInt64.ofNat i.toInt.toNat).toNat = i.toInt.toNat :=
        UInt64.toNat_ofNat_of_lt' (by change _ < 2 ^ 64; omega)
      change (i.toInt == ((UInt64.ofNat i.toInt.toNat).toNat : Int)) = true
      rw [hn, beq_iff_eq]
      omega
    · cases h
  | _ => cases h

theorem beq_of_asInt? {v : Value} {i : Int} (h : v.asInt? = some i) :
    (Value.int (Int64.ofInt i) == v) = true := by
  cases v with
  | int j =>
    cases h
    change (Int64.ofInt j.toInt == j) = true
    rw [Int64.ofInt_toInt, beq_self_eq_true]
  | uint u =>
    simp only [asInt?] at h
    split at h
    · cases h
      have hi : (Int64.ofInt (u.toNat : Int)).toInt = u.toNat :=
        Int64.toInt_ofInt_of_le (by omega) (by omega)
      change ((Int64.ofInt (u.toNat : Int)).toInt == (u.toNat : Int)) = true
      rw [hi, beq_self_eq_true]
    · cases h
  | _ => cases h

theorem asNat?_of_beq_uint {w : Value} {u : UInt64} (h : (w == .uint u) = true) :
    w.asNat? = some u.toNat := by
  cases w with
  | uint t =>
    have htu : (t == u) = true := h
    rw [eq_of_beq htu, asNat?]
  | int i =>
    have hi : (i.toInt == (u.toNat : Int)) = true := h
    rw [asNat?, eq_of_beq hi, if_pos (Int.natCast_nonneg _), Int.toNat_natCast]
  | _ => cases h

theorem branchKey?_of_asInt? {v : Value} {i : Int} (h : v.asInt? = some i) :
    v.branchKey? = some (toString i) := by
  cases v with
  | int j =>
    cases h
    rfl
  | uint u =>
    rw [asInt?] at h
    split at h
    · cases h
      rfl
    · cases h
  | _ => cases h

theorem branchKey?_of_beq {w v : Value} (h : (w == v) = true) : w.branchKey? = v.branchKey? := by
  have mixed {i : Int64} {u : UInt64} (hi : (i.toInt == (u.toNat : Int)) = true) :
      (Value.int i).branchKey? = (Value.uint u).branchKey? := by
    rw [branchKey?, branchKey?, eq_of_beq hi]
    rfl
  cases w with
  | int i =>
    cases v with
    | int j =>
      have hij : (i == j) = true := h
      rw [eq_of_beq hij]
    | uint u => exact mixed h
    | _ => cases h
  | uint t =>
    cases v with
    | int i => exact (mixed h).symm
    | uint u =>
      have htu : (t == u) = true := h
      rw [eq_of_beq htu]
    | _ => cases h
  | bool a =>
    cases v with
    | bool b =>
      have hab : (a == b) = true := h
      rw [eq_of_beq hab]
    | _ => cases h
  | string s =>
    cases v with
    | string t =>
      have hst : (s == t) = true := h
      rw [eq_of_beq hst]
    | _ => cases h
  | _ =>
    -- The other kinds have no key, and nothing that has one is equal to a value of them.
    cases v with
    | int _ => cases h
    | uint _ => cases h
    | bool _ => cases h
    | string _ => cases h
    | _ => rfl

end Value

end PacketCodec
