import PacketCodec.Proofs.Codec.Placement
import PacketCodec.Proofs.Codec.Varint

/-!
# The shortest groups

A word of 32 bits is written seven bits at a time, for as long as more than seven are left, and counting its groups
goes the same way. Reading stops by itself at the last group that was written, so three loops that do not know of
each other agree on the length. It is the least: fewer groups spell smaller numbers, and whatever ends in front of
the last group is only the beginning of a number.
-/

namespace PacketCodec

theorem Bytes.take_overwrite_add {dest bs : Bytes} {offset k : Nat} (hroom : offset + bs.length ≤ dest.length)
    (hk : k ≤ bs.length) :
    (dest.overwrite offset bs).take (offset + k) = dest.take offset ++ bs.take k := by
  have hfront : (dest.take offset).length = offset := List.length_take_of_le (by omega)
  rw [overwrite, List.append_assoc, List.take_append, hfront, List.take_of_length_le (by omega),
    Nat.add_sub_cancel_left, List.take_append_of_le_length hk]

open Writing

namespace Varint

variable {buf bs : Bytes} {offset left n : Nat} {v : UInt32}

theorem toNat_shiftRight_seven (v : UInt32) : (v >>> 7).toNat = v.toNat / 128 := by
  rw [UInt32.toNat_shiftRight]
  simp [Nat.shiftRight_eq_div_pow]

theorem toNat_shiftRight_lt (hv : ¬ v < 128) : (v >>> 7).toNat < v.toNat := by
  have hlow : 128 ≤ v.toNat := UInt32.le_iff_toNat_le.1 (UInt32.not_lt.1 hv)
  rw [toNat_shiftRight_seven]
  omega

/-- Writes a word group by group, each as soon as it is split off, and hands on the offset behind the last. -/
def write (v : UInt32) (offset : Nat) : Writing Nat :=
  if v < 128 then put [v.toUInt8] offset
  else do
    let offset ← put [v.toUInt8 &&& 127 ||| 128] offset
    write (v >>> 7) offset
termination_by v.toNat
decreasing_by exact toNat_shiftRight_lt ‹_›

/-- The number of groups of a word. -/
def length (v : UInt32) : Nat :=
  if v < 128 then 1 else length (v >>> 7) + 1
termination_by v.toNat
decreasing_by exact toNat_shiftRight_lt ‹_›

theorem next_group (v : UInt32) : v.toUInt8 &&& 127 ||| 128 = UInt8.ofNat (v.toNat % 128 + 128) := by
  have hmask : (127 : UInt8).toNat = 2 ^ 7 - 1 := rfl
  have htop : (128 : UInt8).toNat = 2 ^ 7 * 1 := rfl
  have hbits : (v.toUInt8 &&& 127).toNat = v.toNat % 128 := by
    rw [UInt8.toNat_and, UInt32.toNat_toUInt8, hmask, Nat.and_two_pow_sub_one_eq_mod]
    omega
  have hlt : (v.toUInt8 &&& 127).toNat < 2 ^ 7 := by
    rw [hbits]
    exact Nat.mod_lt _ (by decide)
  apply UInt8.toNat_inj.1
  rw [UInt8.toNat_or, htop, Nat.or_comm, ← Nat.two_pow_add_eq_or_of_lt hlt, hbits, UInt8.toNat_ofNat']
  omega

theorem div_lt_bound (hn : n < bound (left + 1)) (hmore : ¬ n < 128) :
    0 < left ∧ n / 128 < bound left := by
  have hrest : n / 128 < bound left := Nat.div_lt_of_lt_mul hn
  refine ⟨Nat.pos_of_ne_zero ?_, hrest⟩
  rintro rfl
  have hzero : n / 128 < 1 := hrest
  omega

theorem groups_succ (hleft : 0 < left) (hn : n < bound left) : groups (left + 1) n = groups left n := by
  induction left generalizing n with
  | zero => exact absurd hleft (Nat.lt_irrefl 0)
  | succ left ih =>
    by_cases hlast : n < 128
    · rw [groups, if_pos hlast, groups, if_pos hlast]
    · obtain ⟨hpos, hrest⟩ := div_lt_bound hn hlast
      rw [groups, if_neg hlast, ih hpos hrest, groups, if_neg hlast]

theorem encode_of_lt (hv : v < 128) : encode v.toNat = [v.toUInt8] :=
  if_pos (UInt32.lt_iff_toNat_lt.1 hv)

theorem encode_of_not_lt (hv : ¬ v < 128) :
    encode v.toNat = (v.toUInt8 &&& 127 ||| 128) :: encode (v >>> 7).toNat := by
  -- Five groups are enough, so there is always one more to split off where the word is not yet used up.
  have hmore : ¬ v.toNat < 128 := fun h => hv (UInt32.lt_iff_toNat_lt.2 h)
  have hfits : v.toNat / 128 < bound 4 := by
    have hword : v.toNat < 2 ^ 32 := v.toNat_lt
    have hbound : bound 4 = 2 ^ 28 := rfl
    omega
  rw [toNat_shiftRight_seven, next_group, encode, maxGroups, groups, if_neg hmore, encode, maxGroups,
    groups_succ (by decide) hfits]

theorem length_eq_length_encode (v : UInt32) : length v = (encode v.toNat).length := by
  fun_induction length v with
  | case1 v hv => rw [encode_of_lt hv, List.length_singleton]
  | case2 v hv ih => rw [encode_of_not_lt hv, List.length_cons, ih]

theorem write_eq_putEach (v : UInt32) (offset : Nat) :
    write v offset = putEach ((encode v.toNat).map fun b => [b]) offset := by
  fun_induction write v offset with
  | case1 offset v hv =>
    rw [encode_of_lt hv, List.map_singleton, putEach]
    exact (bind_pure _).symm
  | case2 offset v hv ih =>
    rw [encode_of_not_lt hv, List.map_cons, putEach]
    exact bind_congr ih

theorem areGroups_encode (v : UInt32) : AreGroups (encode v.toNat) ∧ (encode v.toNat).length ≤ maxGroups := by
  have hfits : v.toNat < bound maxGroups := Nat.lt_trans v.toNat_lt (by decide)
  have hread := readGroups_groups (by decide) hfits [] []
  obtain ⟨bs, ⟨pre, post, hbuf, hpre⟩, hgroups, hle, _, hlength⟩ := readGroups_eq_ok_iff.1 hread
  obtain rfl : pre = [] := List.eq_nil_of_length_eq_zero hpre
  rw [List.nil_append, List.append_nil, List.nil_append] at hbuf
  have hpost : post = [] := by
    have hsum := congrArg List.length hbuf
    rw [List.length_append, hlength] at hsum
    exact List.eq_nil_of_length_eq_zero (by omega)
  rw [hpost, List.append_nil] at hbuf
  rw [encode, hbuf]
  exact ⟨hgroups, hle⟩

theorem readGroups_of_forall_le (hmore : ∀ b ∈ bs, 128 ≤ b) (hfew : bs.length < left) (pre : Bytes) :
    readGroups (pre ++ bs) left pre.length =
      .error (.incomplete (min (pre.length + bs.length + 1) Bytes.maxOffset) (pre.length + bs.length)) := by
  induction bs generalizing left pre with
  | nil =>
    obtain ⟨left, rfl⟩ := Nat.exists_eq_succ_of_ne_zero (Nat.ne_of_gt hfew)
    simp [readGroups, readByte, bind, Except.bind]
  | cons b bs ih =>
    obtain ⟨left, rfl⟩ := Nat.exists_eq_succ_of_ne_zero (Nat.ne_of_gt (Nat.zero_lt_of_lt hfew))
    have hb : ¬ b < 128 := UInt8.not_lt.2 (hmore b List.mem_cons_self)
    have hbyte : readByte (pre ++ b :: bs) pre.length = .ok b := by
      simp [readByte]
    have hrest := ih (fun c hc => hmore c (List.mem_cons_of_mem _ hc)) (Nat.lt_of_succ_lt_succ hfew)
      (pre ++ [b])
    simp only [List.append_assoc, List.singleton_append, List.length_append, List.length_singleton] at hrest
    rw [readGroups, hbyte]
    simp only [bind, Except.bind, if_neg hb, hrest, List.length_cons]
    simp only [Nat.add_assoc, Nat.add_comm 1]

theorem AreGroups.forall_take (h : AreGroups bs) {k : Nat} (hk : k < bs.length) :
    ∀ b ∈ bs.take k, 128 ≤ b := by
  obtain ⟨front, last, rfl, hfront, _⟩ := h
  have hle : k ≤ front.length := by
    simp at hk
    omega
  intro b hb
  rw [List.take_append_of_le_length hle] at hb
  exact hfront b (List.mem_of_mem_take hb)

theorem length_bounds (v : UInt32) : 1 ≤ length v ∧ length v ≤ maxGroups := by
  constructor
  · unfold length
    split <;> omega
  · rw [length_eq_length_encode]
    exact (areGroups_encode v).2

/-- With room for it a word is written from the offset on, as it is emitted. -/
theorem run_write {dest : Bytes} (v : UInt32) (hroom : offset + length v ≤ dest.length) :
    (write v offset).run.run dest = (.ok (offset + length v), dest.overwrite offset (encode v.toNat)) := by
  let emission : Emission := ⟨(((encode v.toNat).map fun b => [b]).map fun piece => ⟨[], piece⟩), none⟩
  have hwrites : emission.Writes (encode v.toNat) := ⟨rfl, by simp [emission, Emission.bytes, List.flatMap_map]⟩
  have hlength : emission.bytes.length = length v := by
    rw [hwrites.2, length_eq_length_encode]
  rw [write_eq_putEach, Emission.placedBy_pieces _ dest offset,
    Emission.place_eq_of_le (by rwa [hlength]), hwrites.size, hwrites.2, length_eq_length_encode]
  rfl

/-- What is read as a word takes at least as many bytes as the word is written in. -/
theorem length_le_of_read (h : read buf offset = .ok (v.toNat, n)) :
    length v ≤ n ∧ offset + n ≤ buf.length := by
  obtain ⟨⟨m, size⟩, hg, h⟩ := Except.bind_eq_ok.1 h
  obtain ⟨hv, rfl⟩ := Prod.mk.inj (Except.ok.inj h)
  have hle : v.toNat ≤ m := hv ▸ Nat.mod_le m _
  have hcount := groupCount_le_of_readGroups hg hle
  rw [← length_groups, ← encode, ← length_eq_length_encode] at hcount
  have hpos := (length_bounds v).1
  refine ⟨hcount, ?_⟩
  rcases covers_of_readGroups hg with hzero | hcovers
  · omega
  · exact hcovers

theorem encodes_as_write {value : Value} (scope : Scope)
    (hv : Scalar.expectVarint Primitive.varint.name value = .ok v.toNat) :
    (Codec.scalar .varint).measure scope value = .ok (length v) ∧
      ∀ dest offset, (write v offset).run.run dest =
        (((Codec.scalar .varint).encode scope value dest offset).outcome,
          ((Codec.scalar .varint).encode scope value dest offset).dest) := by
  have hencode : Scalar.varint.encode Primitive.varint.name value = .ok (encode v.toNat) := by
    rw [Scalar.encode, hv]
    rfl
  have hmeasure : Scalar.varint.measure Primitive.varint.name value = .ok (length v) := by
    rw [Scalar.measure_eq_encode, hencode, length_eq_length_encode]
    rfl
  constructor
  · rw [Codec.measure]
    exact congrArg checked hmeasure
  · intro dest offset
    rw [write_eq_putEach, Emission.placedBy_pieces _ dest offset, Codec.encode, Codec.emit]
    simp only [Primitive.scalar, hencode, Emission.ofExcept, Scalar.pieces]

/-- A word is written in as many bytes as are counted, one to five, and read again from there whatever follows;
cut short, it is asked for the byte that is missing. Nothing that takes fewer bytes is read as the word. Values
that stand for the word are measured and encoded in the same way. -/
theorem written_shortest (v : UInt32) :
    (1 ≤ length v ∧ length v ≤ 5) ∧
    (∀ dest offset, offset + length v ≤ dest.length → ∃ dest' : Bytes,
      (write v offset).run.run dest = (.ok (offset + length v), dest') ∧
      (∀ more, read (dest'.take (offset + length v) ++ more) offset = .ok (v.toNat, length v)) ∧
      ∀ k, k < length v → read (dest'.take (offset + k)) offset =
        .error (.incomplete (min (offset + k + 1) Bytes.maxOffset) (offset + k))) ∧
    (∀ buf offset n, read buf offset = .ok (v.toNat, n) → length v ≤ n ∧ offset + n ≤ buf.length) ∧
    ∀ scope value, Scalar.expectVarint Primitive.varint.name value = .ok v.toNat →
      (Codec.scalar .varint).measure scope value = .ok (length v) ∧
        ∀ dest offset, (write v offset).run.run dest =
          (((Codec.scalar .varint).encode scope value dest offset).outcome,
            ((Codec.scalar .varint).encode scope value dest offset).dest) := by
  refine ⟨length_bounds v, ?_, fun buf offset n => length_le_of_read, fun scope value => encodes_as_write scope⟩
  intro dest offset hroom
  have hlength := length_eq_length_encode v
  have hstands : offset + (encode v.toNat).length ≤ dest.length := by rwa [← hlength]
  have hfront : (dest.take offset).length = offset := List.length_take_of_le (by omega)
  refine ⟨_, run_write v hroom, fun more => ?_, fun k hk => ?_⟩
  · have hread := read_encode v.toNat_lt (dest.take offset) more
    rw [hfront, ← hlength] at hread
    rw [hlength, Bytes.take_overwrite_add hstands (Nat.le_refl _), List.take_length, ← hlength, hread]
  · obtain ⟨hgroups, hfew⟩ := areGroups_encode v
    have hk' : k < (encode v.toNat).length := by rwa [← hlength]
    have hcut : ((encode v.toNat).take k).length = k := List.length_take_of_le (Nat.le_of_lt hk')
    have hread : readGroups (dest.take offset ++ (encode v.toNat).take k) maxGroups (dest.take offset).length = _ :=
      readGroups_of_forall_le (hgroups.forall_take hk') (by omega) _
    rw [hfront, hcut] at hread
    rw [Bytes.take_overwrite_add hstands (Nat.le_of_lt hk'), read, hread]
    rfl

theorem threeHundred_written_shortest :
    length 300 = 2 ∧ 1 + length 300 ≤ (List.replicate 4 255 : Bytes).length ∧
      (∃ dest' : Bytes, (write 300 1).run.run (List.replicate 4 255) = (.ok 3, dest') ∧
        (∀ more, read (dest'.take 3 ++ more) 1 = .ok (300, 2)) ∧
        read (dest'.take 2) 1 = .error (.incomplete 3 2)) ∧
      read [172, 130, 0, 7] 0 = .ok (300, 3) ∧ length 300 ≤ 3 ∧
      Scalar.expectVarint Primitive.varint.name (.int 300) = .ok 300 ∧
      (Codec.scalar .varint).measure [] (.int 300) = .ok 2 := by
  have hlength : length 300 = 2 := by
    rw [length_eq_length_encode]
    rfl
  have hroom : 1 + length 300 ≤ (List.replicate 4 255 : Bytes).length := by
    rw [hlength]
    decide
  have hread : read [172, 130, 0, 7] 0 = .ok (300, 3) := by rfl
  have hword : Scalar.expectVarint Primitive.varint.name (.int 300) = .ok 300 := by rfl
  obtain ⟨_, hwrite, hshortest, hvalues⟩ := written_shortest 300
  obtain ⟨dest', hrun, hwhole, hcut⟩ := hwrite _ 1 hroom
  refine ⟨hlength, hroom, ⟨dest', ?_, fun more => ?_, ?_⟩, hread, (hshortest _ 0 3 hread).1, hword, ?_⟩
  · rw [hrun, hlength]
  · have hwhole := hwhole more
    rwa [hlength] at hwhole
  · exact hcut 1 (by rw [hlength]; decide)
  · rw [(hvalues [] _ hword).1, hlength]

end Varint

end PacketCodec
