import Mathlib.Data.Nat.Digits.Defs
import Mathlib.Data.Nat.Digits.Lemmas
import PacketCodec.Proofs.Codec.Reread

/-!
# What variable-length integers spell

Groups spell a number in base 128, lowest first, and the last of them is the one whose top bit is clear. Exactly
where at most five groups stand a number is read. It is what they spell only up to 32 bits: of a fifth group
three bits are lost, and nothing tells.
-/

namespace PacketCodec

variable {buf bs cs : Bytes} {b : UInt8} {offset : Nat}

theorem Bytes.standAt_nil : Bytes.StandAt [] buf offset ↔ offset ≤ buf.length := by
  constructor
  · rintro ⟨pre, post, rfl, rfl⟩
    simp
  · intro h
    exact ⟨buf.take offset, buf.drop offset, by simp, List.length_take_of_le h⟩

theorem Bytes.standAt_cons :
    Bytes.StandAt (b :: bs) buf offset ↔ buf[offset]? = some b ∧ bs.StandAt buf (offset + 1) := by
  constructor
  · rintro ⟨pre, post, rfl, rfl⟩
    exact ⟨by simp, pre ++ [b], post, by simp, by simp⟩
  · rintro ⟨hb, pre, post, rfl, hpre⟩
    -- The byte is the last one of what stands in front of the others.
    rcases List.eq_nil_or_concat pre with rfl | ⟨front, last, rfl⟩
    · cases hpre
    · obtain rfl : front.length = offset := by simpa using hpre
      obtain rfl : last = b := by simpa using hb
      exact ⟨front, post, by simp, rfl⟩

namespace Varint

/-- The number that bytes spell in groups of seven bits, lowest first. -/
def spelled (bs : Bytes) : Nat :=
  ((bs.map fun b => b.toNat % 128).mapIdx fun i group => group * 128 ^ i).sum

/-- Bytes of which the last one, and no other, has its top bit clear. -/
def AreGroups (bs : Bytes) : Prop :=
  ∃ front last, bs = front ++ [last] ∧ (∀ b ∈ front, 128 ≤ b) ∧ last < 128

theorem spelled_eq_ofDigits (bs : Bytes) :
    spelled bs = Nat.ofDigits 128 (bs.map fun b => b.toNat % 128) :=
  (Nat.ofDigits_eq_sum_mapIdx ..).symm

theorem spelled_cons : spelled (b :: bs) = b.toNat % 128 + 128 * spelled bs := by
  rw [spelled_eq_ofDigits, spelled_eq_ofDigits, List.map_cons, Nat.ofDigits_cons]

theorem spelled_last (hb : b < 128) : spelled [b] = b.toNat := by
  have hlt : b.toNat < 128 := UInt8.lt_iff_toNat_lt.1 hb
  rw [spelled_cons, Nat.mod_eq_of_lt hlt]
  rfl

theorem spelled_more (hb : ¬ b < 128) : spelled (b :: bs) = b.toNat - 128 + 128 * spelled bs := by
  have hlow : 128 ≤ b.toNat := UInt8.le_iff_toNat_le.1 (UInt8.not_lt.1 hb)
  have hlt := b.toNat_lt
  rw [spelled_cons]
  omega

theorem spelled_append : spelled (bs ++ cs) = spelled bs + 128 ^ bs.length * spelled cs := by
  rw [spelled_eq_ofDigits, spelled_eq_ofDigits, spelled_eq_ofDigits, List.map_append,
    Nat.ofDigits_append, List.length_map]

theorem spelled_lt (bs : Bytes) : spelled bs < 128 ^ bs.length := by
  have hlength : (bs.map fun b => b.toNat % 128).length = bs.length := List.length_map _
  rw [spelled_eq_ofDigits, ← hlength]
  apply Nat.ofDigits_lt_base_pow_length (by decide)
  intro group hg
  obtain ⟨b, _, rfl⟩ := List.mem_map.1 hg
  exact Nat.mod_lt _ (by decide)

theorem areGroups_cons :
    AreGroups (b :: bs) ↔ if b < 128 then bs = [] else AreGroups bs := by
  constructor
  · rintro ⟨front, last, h, hfront, hlast⟩
    cases front with
    | nil =>
      obtain ⟨rfl, rfl⟩ := List.cons.inj h
      rw [if_pos hlast]
    | cons first front =>
      obtain ⟨rfl, rfl⟩ := List.cons.inj h
      rw [if_neg (UInt8.not_lt.2 (hfront _ List.mem_cons_self))]
      exact ⟨front, last, rfl, fun b hb => hfront b (List.mem_cons_of_mem _ hb), hlast⟩
  · intro h
    split at h
    · rename_i hb
      exact ⟨[], b, by rw [h]; rfl, fun _ hm => (nomatch hm), hb⟩
    · rename_i hb
      obtain ⟨front, last, rfl, hfront, hlast⟩ := h
      refine ⟨b :: front, last, rfl, fun c hc => ?_, hlast⟩
      rcases List.mem_cons.1 hc with rfl | hc
      · exact UInt8.not_lt.1 hb
      · exact hfront c hc

theorem readByte_eq_ok : readByte buf offset = .ok b ↔ buf[offset]? = some b := by
  unfold readByte
  cases buf[offset]? <;> simp

theorem not_areGroups_nil : ¬ AreGroups [] := by
  rintro ⟨front, last, h, _⟩
  simp at h

/-- A number is read exactly from groups that are not too many, and it is what they spell. -/
theorem readGroups_eq_ok_iff {left n size : Nat} : readGroups buf left offset = .ok (n, size) ↔
    ∃ bs, Bytes.StandAt bs buf offset ∧ AreGroups bs ∧ bs.length ≤ left ∧ n = spelled bs ∧
      size = bs.length := by
  induction left generalizing offset n size with
  | zero =>
    refine ⟨fun h => (nomatch h), ?_⟩
    rintro ⟨bs, _, hgroups, hlength, _⟩
    rw [List.eq_nil_of_length_eq_zero (Nat.le_zero.1 hlength)] at hgroups
    exact absurd hgroups not_areGroups_nil
  | succ left ih =>
    constructor
    · intro h
      obtain ⟨b, hb, h⟩ := Except.bind_eq_ok.1 h
      rw [readByte_eq_ok] at hb
      split at h
      · rename_i hlast
        cases h
        have hstand : Bytes.StandAt [b] buf offset :=
          Bytes.standAt_cons.2 ⟨hb, Bytes.standAt_nil.2 (List.getElem?_eq_some_iff.1 hb).1⟩
        exact ⟨[b], hstand, areGroups_cons.2 (by rw [if_pos hlast]), Nat.succ_le_succ (Nat.zero_le _),
          (spelled_last hlast).symm, rfl⟩
      · rename_i hmore
        obtain ⟨⟨high, size'⟩, hr, h⟩ := Except.bind_eq_ok.1 h
        cases h
        obtain ⟨bs, hstand, hgroups, hlength, rfl, rfl⟩ := ih.1 hr
        exact ⟨b :: bs, Bytes.standAt_cons.2 ⟨hb, hstand⟩, areGroups_cons.2 (by rwa [if_neg hmore]),
          Nat.succ_le_succ hlength, (spelled_more hmore).symm, rfl⟩
    · rintro ⟨bs, hstand, hgroups, hlength, rfl, rfl⟩
      cases bs with
      | nil => exact absurd hgroups not_areGroups_nil
      | cons b bs =>
        obtain ⟨hb, hstand⟩ := Bytes.standAt_cons.1 hstand
        refine Except.bind_eq_ok.2 ⟨b, readByte_eq_ok.2 hb, ?_⟩
        rw [areGroups_cons] at hgroups
        by_cases hlast : b < 128
        · rw [if_pos hlast] at hgroups ⊢
          rw [hgroups, spelled_last hlast]
          rfl
        · rw [if_neg hlast] at hgroups ⊢
          have hrest := ih.2 ⟨bs, hstand, hgroups, Nat.le_of_succ_le_succ hlength, rfl, rfl⟩
          refine Except.bind_eq_ok.2 ⟨_, hrest, ?_⟩
          rw [spelled_more hlast]
          rfl

theorem spelled_lt_iff (h : AreGroups bs) (hlength : bs.length ≤ maxGroups) :
    spelled bs < UInt32.size ↔ ∀ b, bs[4]? = some b → b < 16 := by
  obtain ⟨front, last, rfl, _, hlast⟩ := h
  rw [List.length_append, List.length_singleton, maxGroups] at hlength
  have hsize : UInt32.size = 128 ^ 4 * 16 := rfl
  by_cases hfive : front.length = 4
  · have hlow : spelled front < 128 ^ 4 := hfive ▸ spelled_lt front
    have hget : (front ++ [last])[4]? = some last := hfive ▸ List.getElem?_concat_length
    rw [spelled_append, spelled_last hlast, hfive, hsize, hget]
    simp only [Option.some.injEq, forall_eq', UInt8.lt_iff_toNat_lt, UInt8.reduceToNat]
    omega
  · have hfew : (front ++ [last]).length ≤ 4 := by simp; omega
    have hlow : spelled (front ++ [last]) < 128 ^ 4 :=
      Nat.lt_of_lt_of_le (spelled_lt _) (Nat.pow_le_pow_right (by decide) hfew)
    rw [List.getElem?_eq_none hfew]
    exact ⟨fun _ _ hb => (nomatch hb), fun _ => by omega⟩

/-- A number is read exactly where one stands in at most five groups, and then it is the lowest 32 bits of what
these spell. It is all that they spell, unless there is a fifth group and it is 16 or more. -/
theorem reads_low_bits (buf : Bytes) (offset v n : Nat) : read buf offset = .ok (v, n) ↔
    ∃ bs, Bytes.StandAt bs buf offset ∧ AreGroups bs ∧ bs.length ≤ maxGroups ∧ n = bs.length ∧
      v = spelled bs % UInt32.size ∧ (v = spelled bs ↔ ∀ b, bs[4]? = some b → b < 16) := by
  have hexact (bs : Bytes) : spelled bs % UInt32.size = spelled bs ↔ spelled bs < UInt32.size :=
    ⟨fun h => h ▸ Nat.mod_lt _ (by decide), Nat.mod_eq_of_lt⟩
  constructor
  · intro h
    obtain ⟨⟨m, size⟩, hg, h⟩ := Except.bind_eq_ok.1 h
    cases h
    obtain ⟨bs, hstand, hgroups, hlength, rfl, rfl⟩ := readGroups_eq_ok_iff.1 hg
    exact ⟨bs, hstand, hgroups, hlength, rfl, rfl, (hexact bs).trans (spelled_lt_iff hgroups hlength)⟩
  · rintro ⟨bs, hstand, hgroups, hlength, rfl, rfl, _⟩
    have hg := readGroups_eq_ok_iff.2 ⟨bs, hstand, hgroups, hlength, rfl, rfl⟩
    exact Except.bind_eq_ok.2 ⟨_, hg, rfl⟩

/-- Five groups of which the last one is 127 spell more than 32 bits and are read all the same. -/
theorem read_loses_bits : read [255, 255, 255, 255, 127] 0 = .ok (4294967295, 5) ∧
    AreGroups [255, 255, 255, 255, 127] ∧ spelled [255, 255, 255, 255, 127] = 34359738367 := by
  refine ⟨rfl, ⟨List.replicate 4 255, 127, rfl, fun b hb => ?_, by decide⟩, rfl⟩
  rw [List.eq_of_mem_replicate hb]
  decide

end Varint

end PacketCodec
