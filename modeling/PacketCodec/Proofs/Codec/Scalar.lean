import PacketCodec.Proofs.Codec.Emission
import PacketCodec.Proofs.Except

/-!
# Scalars

Measuring a scalar gives the length of its bytes, however they are divided into pieces. A value that was
read, unless it is a floating-point number, is encoded by bytes from which it is read again.
-/

namespace PacketCodec

section TakeBytes

variable {buf bs : Bytes} {offset count : Nat}

theorem takeBytes_eq_ok : takeBytes buf offset count = .ok bs ↔
    ∃ pre post, buf = pre ++ bs ++ post ∧ pre.length = offset ∧ bs.length = count := by
  unfold takeBytes Bytes.slice?
  constructor
  · intro h
    split at h
    · rename_i content hs
      split at hs
      · cases hs
        cases h
        refine ⟨buf.take offset, buf.drop (offset + count), ?_, ?_, ?_⟩
        · rw [List.append_assoc, ← List.drop_drop, List.take_append_drop, List.take_append_drop]
        · simp
          omega
        · simp
          omega
      · cases hs
    · cases h
  · rintro ⟨pre, post, rfl, rfl, rfl⟩
    simp

theorem eq_of_takeBytes (h : takeBytes buf offset count = .ok bs) :
    bs = (buf.drop offset).take count := by
  obtain ⟨pre, post, rfl, rfl, rfl⟩ := takeBytes_eq_ok.1 h
  simp

theorem takeCounted_eq_ok : takeCounted buf offset count = .ok bs ↔
    offset + count ≤ Bytes.maxOffset ∧ takeBytes buf offset count = .ok bs := by
  unfold takeCounted
  split
  · rename_i h
    exact ⟨fun hb => (nomatch hb), fun hb => absurd hb.1 (by omega)⟩
  · rename_i h
    exact ⟨fun hb => ⟨by omega, hb⟩, fun hb => hb.2⟩

theorem length_of_takeCounted (h : takeCounted buf offset count = .ok bs) : bs.length = count := by
  obtain ⟨_, _, _, _, hlength⟩ := takeBytes_eq_ok.1 (takeCounted_eq_ok.1 h).2
  exact hlength

end TakeBytes

theorem Varint.length_groups (left n : Nat) :
    (Varint.groups left n).length = Varint.groupCount left n := by
  induction left generalizing n with
  | zero => rfl
  | succ left ih =>
    simp only [Varint.groups, Varint.groupCount]
    split
    · rfl
    · simp [ih]

namespace Varint

theorem groupCount_le_of_readGroups {buf : Bytes} {left offset n size : Nat}
    (h : readGroups buf left offset = .ok (n, size)) {m : Nat} (hm : m ≤ n) :
    groupCount left m ≤ size := by
  induction left generalizing offset n size m with
  | zero => cases h
  | succ left ih =>
    obtain ⟨b, _, h⟩ := Except.bind_eq_ok.1 h
    split at h
    · rename_i hb
      cases h
      have hlt : b.toNat < 128 := UInt8.lt_iff_toNat_lt.1 hb
      have hone : groupCount (left + 1) m = 1 := if_pos (Nat.lt_of_le_of_lt hm hlt)
      exact Nat.le_of_eq hone
    · obtain ⟨⟨high, size'⟩, hr, h⟩ := Except.bind_eq_ok.1 h
      cases h
      have hlt := b.toNat_lt
      have hrest := ih hr (show m / 128 ≤ high by omega)
      rw [groupCount]
      split <;> omega

/-- The least number that does not fit in `left` groups. -/
def bound : Nat → Nat
  | 0 => 1
  | left + 1 => 128 * bound left

private theorem readByte_append (pre post : Bytes) (b : UInt8) :
    readByte (pre ++ b :: post) pre.length = .ok b := by
  simp [readByte]

private theorem readGroups_last {b : UInt8} (hb : b < 128) (pre post : Bytes) (left : Nat) :
    readGroups (pre ++ b :: post) (left + 1) pre.length = .ok (b.toNat, 1) := by
  rw [readGroups, readByte_append]
  simp only [bind, Except.bind, hb, if_true]
  rfl

private theorem readGroups_more {b : UInt8} (hb : ¬ b < 128) {pre post : Bytes}
    {left high size : Nat}
    (h : readGroups (pre ++ b :: post) left (pre.length + 1) = .ok (high, size)) :
    readGroups (pre ++ b :: post) (left + 1) pre.length =
      .ok (b.toNat - 128 + 128 * high, size + 1) := by
  rw [readGroups, readByte_append]
  simp only [bind, Except.bind, hb, if_false, h]
  rfl

theorem readGroups_groups {left n : Nat} (hleft : 0 < left) (hn : n < bound left)
    (pre post : Bytes) : readGroups (pre ++ (groups left n ++ post)) left pre.length =
      .ok (n, (groups left n).length) := by
  induction left generalizing n pre with
  | zero => exact absurd hleft (Nat.lt_irrefl 0)
  | succ left ih =>
    rw [groups]
    split
    · rename_i hlt
      have hb : (UInt8.ofNat n).toNat = n := UInt8.toNat_ofNat_of_lt' (by change n < 256; omega)
      have hlast : UInt8.ofNat n < 128 := UInt8.lt_iff_toNat_lt.2 (by rw [hb]; exact hlt)
      rw [List.singleton_append, readGroups_last hlast, hb]
      rfl
    · rename_i hge
      have hb : (UInt8.ofNat (n % 128 + 128)).toNat = n % 128 + 128 :=
        UInt8.toNat_ofNat_of_lt' (by change _ < 256; omega)
      have hmore : ¬ UInt8.ofNat (n % 128 + 128) < 128 := by
        rw [UInt8.lt_iff_toNat_lt, hb]
        simp
      have hrest : n / 128 < bound left := Nat.div_lt_of_lt_mul hn
      have hpos : 0 < left := by
        rcases Nat.eq_zero_or_pos left with rfl | hpos
        · have hzero : n / 128 < 1 := hrest
          omega
        · exact hpos
      have hread := ih hpos hrest (pre ++ [UInt8.ofNat (n % 128 + 128)])
      rw [List.append_assoc, List.singleton_append, List.length_append,
        List.length_singleton] at hread
      rw [List.cons_append, readGroups_more hmore hread, hb, List.length_cons]
      congr 2
      omega

theorem read_encode {n : Nat} (hn : n < UInt32.size) (pre post : Bytes) :
    read (pre ++ encode n ++ post) pre.length = .ok (n, (encode n).length) := by
  have hgroups : readGroups (pre ++ (encode n ++ post)) maxGroups pre.length =
      .ok (n, (encode n).length) :=
    readGroups_groups (by decide) (Nat.lt_trans hn (by decide)) pre post
  rw [List.append_assoc, read, hgroups]
  exact congrArg (fun m => Except.ok (m, _)) (Nat.mod_eq_of_lt hn)

end Varint

namespace Scalar

variable {type : String} {s : Scalar} {value : Value}

private theorem bind_pure_eq_map_length {α : Type} (checked : Except EncodeFault α)
    {size : α → Nat} {bytes : α → Bytes} (h : ∀ a, (bytes a).length = size a) :
    (do let a ← checked; return size a) =
      (do let a ← checked; return bytes a : Except EncodeFault Bytes).map List.length := by
  cases checked with
  | error fault => rfl
  | ok a => exact congrArg Except.ok (h a).symm

theorem measure_eq_encode (type : String) (s : Scalar) (value : Value) :
    s.measure type value = (s.encode type value).map List.length := by
  cases s with
  | unsigned order width => exact bind_pure_eq_map_length _ (Bytes.length_ofNat order width)
  | signed order width =>
    exact bind_pure_eq_map_length _ fun i => Bytes.length_ofNat order width (ofSigned width i)
  | single order => exact bind_pure_eq_map_length _ fun x => Bytes.length_ofNat order 4 _
  | double order => exact bind_pure_eq_map_length _ fun x => Bytes.length_ofNat order 8 _
  | bool => exact bind_pure_eq_map_length _ fun b => rfl
  | varint => exact bind_pure_eq_map_length _ (Varint.length_groups Varint.maxGroups)
  | void => rfl

theorem flatten_pieces {bs : Bytes} (h : s.encode type value = .ok bs) :
    (s.pieces bs).flatten = bs := by
  cases s with
  | varint =>
    simp only [pieces]
    clear h
    induction bs with
    | nil => rfl
    | cons b bs ih => simp [ih]
  | void =>
    cases h
    rfl
  | _ => simp [pieces]

theorem writes_pieces {bs : Bytes} (h : s.encode type value = .ok bs) :
    Emission.Writes ⟨(s.pieces bs).map fun piece => ⟨[], piece⟩, none⟩ bs := by
  refine ⟨rfl, ?_⟩
  change ((s.pieces bs).map fun piece => (⟨[], piece⟩ : Piece)).flatMap Piece.bytes = bs
  rw [List.flatMap_map]
  exact List.flatMap_id'.trans (flatten_pieces h)

theorem measure_eq_fixedSize {n m : Nat} (hs : s.fixedSize = some n)
    (h : s.measure type value = .ok m) : m = n := by
  cases s with
  | varint => cases hs
  | void =>
    cases h
    exact Option.some.inj hs
  | _ =>
    obtain ⟨_, _, hm⟩ := Except.bind_eq_ok.1 h
    cases hm
    exact Option.some.inj hs

theorem ofValue_of_encode {fault : EncodeFault} (h : s.encode type value = .error fault) :
    fault.OfValue := by
  cases s with
  | void => cases h
  | _ =>
    rcases Except.bind_eq_error.1 h with h | ⟨_, _, h⟩
    · grind [expectNat, expectInt, expectDouble, expectBool, expectVarint, EncodeFault.OfValue]
    · cases h

def IsFloat : Scalar → Prop
  | .single _ => True
  | .double _ => True
  | _ => False

private theorem signed_of_lt {half n : Nat} {i : Int} (hn : n < 2 * half)
    (hi : i = if n < half then (n : Int) else n - (2 * half : Nat)) :
    -half ≤ i ∧ i < half ∧ (i % (2 * half : Nat)).toNat = n := by
  have hmod : (n : Int) % (2 * half : Nat) = n := Int.emod_eq_of_lt (by omega) (by omega)
  by_cases h : n < half
  · rw [if_pos h] at hi
    rw [hi, hmod]
    omega
  · rw [if_neg h] at hi
    rw [hi, Int.sub_emod_right, hmod]
    omega

private theorem toSigned_spec {width n : Nat} (hpos : 1 ≤ width) (hn : n < Bytes.bound width) :
    -(Bytes.bound width / 2 : Nat) ≤ toSigned width n ∧
      toSigned width n < (Bytes.bound width / 2 : Nat) ∧
      ofSigned width (toSigned width n) = n := by
  have heven : Bytes.bound width = 2 * (Bytes.bound width / 2) := by
    obtain ⟨width, rfl⟩ := Nat.exists_eq_add_of_le' hpos
    rw [Bytes.bound]
    omega
  rw [toSigned, ofSigned]
  generalize Bytes.bound width / 2 = half at heven ⊢
  rw [heven] at hn ⊢
  exact signed_of_lt hn rfl

/-- The widths of integers that fit a word of 64 bits. -/
def FitsWord : Scalar → Prop
  | .unsigned _ width => width ≤ 8
  | .signed _ width => 1 ≤ width ∧ width ≤ 8
  | _ => True

private theorem encode_unsigned_toNat {order : ByteOrder} {width : Nat} (hw : width ≤ 8)
    {bs : Bytes} (hbs : bs.length = width) :
    (Scalar.unsigned order width).encode type (.uint (UInt64.ofNat (Bytes.toNat order bs))) =
      .ok bs := by
  subst hbs
  have hlt := Bytes.toNat_lt order bs
  have hword : Bytes.bound bs.length ≤ UInt64.size := Bytes.bound_mono hw
  have hn : (UInt64.ofNat (Bytes.toNat order bs)).toNat = Bytes.toNat order bs :=
    UInt64.toNat_ofNat_of_lt' (Nat.lt_of_lt_of_le hlt hword)
  have hexpect : expectNat type (Bytes.bound bs.length)
      (.uint (UInt64.ofNat (Bytes.toNat order bs))) = .ok (Bytes.toNat order bs) := by
    simp only [expectNat, Value.asNat?, hn, hlt, if_true]
  simp only [encode, hexpect]
  exact congrArg Except.ok (Bytes.ofNat_toNat order bs)

private theorem encode_signed_toSigned {order : ByteOrder} {width : Nat} (hpos : 1 ≤ width)
    (hw : width ≤ 8) {bs : Bytes} (hbs : bs.length = width) :
    (Scalar.signed order width).encode type
      (.int (Int64.ofInt (toSigned width (Bytes.toNat order bs)))) = .ok bs := by
  have hn : Bytes.toNat order bs < Bytes.bound width := hbs ▸ Bytes.toNat_lt order bs
  obtain ⟨hlow, hhigh, hsame⟩ := toSigned_spec hpos hn
  have hword : Bytes.bound width ≤ 0x10000000000000000 := Bytes.bound_mono hw
  have hi : (Int64.ofInt (toSigned width (Bytes.toNat order bs))).toInt =
      toSigned width (Bytes.toNat order bs) := Int64.toInt_ofInt_of_le (by omega) (by omega)
  have hexpect : expectInt type (-(Bytes.bound width / 2 : Nat)) (Bytes.bound width / 2 : Nat)
      (.int (Int64.ofInt (toSigned width (Bytes.toNat order bs)))) =
        .ok (toSigned width (Bytes.toNat order bs)) := by
    simp only [expectInt, Value.asInt?, hi, hlow, hhigh, and_self, if_true]
  simp only [encode, hexpect]
  apply congrArg Except.ok
  rw [hsame, ← hbs, Bytes.ofNat_toNat]

/-- A value that was read from `size` bytes is encoded by no more, from which it is read again. -/
def ReadsBack (type : String) (s : Scalar) (value : Value) (size : Nat) : Prop :=
  ∃ bs, s.encode type value = .ok bs ∧ bs.length ≤ size ∧
    ∀ pre post, s.read (pre ++ bs ++ post) pre.length = .ok (value, bs.length)

private theorem readsBack_of_takeBytes {width : Nat} {f : Bytes → Value}
    (hread : ∀ buf offset, s.read buf offset = (do
      let bs ← takeBytes buf offset width
      return (f bs, width)))
    (hencode : ∀ bs, bs.length = width →
      ∃ bs', s.encode type (f bs) = .ok bs' ∧ bs'.length = width ∧ f bs' = f bs)
    {buf : Bytes} {offset size : Nat} (h : s.read buf offset = .ok (value, size)) :
    ReadsBack type s value size := by
  rw [hread] at h
  obtain ⟨bs, hb, h⟩ := Except.bind_eq_ok.1 h
  cases h
  obtain ⟨_, _, _, _, hlength⟩ := takeBytes_eq_ok.1 hb
  obtain ⟨bs', he, hlength', hf⟩ := hencode bs hlength
  refine ⟨bs', he, Nat.le_of_eq hlength', fun pre post => ?_⟩
  have htake : takeBytes (pre ++ bs' ++ post) pre.length width = .ok bs' :=
    takeBytes_eq_ok.2 ⟨pre, post, rfl, rfl, hlength'⟩
  rw [hread, htake, hlength', ← hf]
  rfl

private theorem readsBack_varint {buf : Bytes} {offset size : Nat}
    (h : Scalar.varint.read buf offset = .ok (value, size)) :
    ReadsBack type .varint value size := by
  obtain ⟨⟨bits, size'⟩, hr, h⟩ := Except.bind_eq_ok.1 h
  obtain ⟨⟨n, size''⟩, hg, hr⟩ := Except.bind_eq_ok.1 hr
  cases hr
  cases h
  have hlt : n % UInt32.size < 2 * 0x80000000 := Nat.mod_lt _ (by decide)
  have hle : n % UInt32.size ≤ n := Nat.mod_le _ _
  have hcount := Varint.groupCount_le_of_readGroups hg hle
  generalize n % UInt32.size = bits at hlt hcount ⊢
  obtain ⟨hlow, hhigh, hsame⟩ := signed_of_lt (i := Varint.toInt bits) hlt rfl
  have hi : (Int64.ofInt (Varint.toInt bits)).toInt = Varint.toInt bits :=
    Int64.toInt_ofInt_of_le (by omega) (by omega)
  have hbits : Varint.bits? (Varint.toInt bits) = some bits := by
    have hsize : (UInt32.size : Int) = 2 * 0x80000000 := rfl
    rw [Varint.bits?, if_pos (by omega)]
    exact congrArg some hsame
  have hencode : Scalar.varint.encode type (.int (Int64.ofInt (Varint.toInt bits))) =
      .ok (Varint.encode bits) := by
    simp only [encode, expectVarint, Value.asInt?, hi, hbits]
    rfl
  refine ⟨_, hencode, ?_, fun pre post => ?_⟩
  · exact (Varint.length_groups Varint.maxGroups bits).symm ▸ hcount
  · rw [read, Varint.read_encode hlt]
    rfl

/-- Reading a scalar that is not a floating-point number can be repeated on what its value is
encoded by. -/
theorem readsBack_of_read (type : String) (hs : s.FitsWord) (hf : ¬ s.IsFloat) {buf : Bytes}
    {offset size : Nat} (h : s.read buf offset = .ok (value, size)) :
    ReadsBack type s value size := by
  cases s with
  | unsigned order width =>
    refine readsBack_of_takeBytes (fun _ _ => rfl) (fun bs hbs => ?_) h
    exact ⟨bs, encode_unsigned_toNat hs hbs, hbs, rfl⟩
  | signed order width =>
    refine readsBack_of_takeBytes (fun _ _ => rfl) (fun bs hbs => ?_) h
    exact ⟨bs, encode_signed_toSigned hs.1 hs.2 hbs, hbs, rfl⟩
  | single order => exact absurd trivial hf
  | double order => exact absurd trivial hf
  | bool =>
    refine readsBack_of_takeBytes (fun _ _ => rfl) (fun bs _ => ?_) h
    refine ⟨[if bs != [0] then 1 else 0], rfl, rfl, ?_⟩
    cases bs != [0] <;> rfl
  | varint => exact readsBack_varint h
  | void =>
    cases h
    exact ⟨[], rfl, Nat.le_refl 0, fun _ _ => rfl⟩

/-- A scalar has no value that can be spelled in two ways, and none that floats. -/
def IsCanonical : Scalar → Prop
  | .unsigned _ _ => True
  | .signed _ _ => True
  | .void => True
  | _ => False

/-- What was read from the one spelling that a value has is encoded by just that. -/
theorem encode_of_read (type : String) (hs : s.FitsWord) (hc : s.IsCanonical) {buf : Bytes}
    {offset size : Nat} (h : s.read buf offset = .ok (value, size)) :
    s.encode type value = .ok ((buf.drop offset).take size) := by
  cases s with
  | unsigned order width =>
    obtain ⟨bs, hb, h⟩ := Except.bind_eq_ok.1 h
    cases h
    obtain ⟨_, _, _, _, hlength⟩ := takeBytes_eq_ok.1 hb
    rw [← eq_of_takeBytes hb]
    exact encode_unsigned_toNat hs hlength
  | signed order width =>
    obtain ⟨bs, hb, h⟩ := Except.bind_eq_ok.1 h
    cases h
    obtain ⟨_, _, _, _, hlength⟩ := takeBytes_eq_ok.1 hb
    rw [← eq_of_takeBytes hb]
    exact encode_signed_toSigned hs.1 hs.2 hlength
  | void =>
    cases h
    rfl
  | _ => exact hc.elim

theorem encode_uint_of_encode_int {i : Int64} {u : UInt64} (hu : i.toInt = u.toNat) {bs : Bytes}
    (h : s.encode type (.int i) = .ok bs) : s.encode type (.uint u) = .ok bs := by
  have hnat : Value.asNat? (.int i) = some u.toNat := by
    simp only [Value.asNat?, hu, Int.natCast_nonneg, if_true, Int.toNat_natCast]
  have hnat' : Value.asNat? (.uint u) = some u.toNat := rfl
  have hint : Value.asInt? (.int i) = some (u.toNat : Int) := by
    rw [Value.asInt?, hu]
  have hint' : Value.asInt? (.uint u) = some (u.toNat : Int) := by
    have hlt := i.toInt_lt
    rw [Value.asInt?, if_pos (by omega)]
  have hdouble : Value.asDouble? (.int i) = some (Double.ofInt u.toNat) := by
    rw [Value.asDouble?, hu]
  have hdouble' : Value.asDouble? (.uint u) = some (Double.ofInt u.toNat) := by
    rw [Value.asDouble?]
  have hexpectNat (bound : Nat) :
      expectNat type bound (.int i) = expectNat type bound (.uint u) := by
    rw [expectNat, expectNat, hnat, hnat']
  have hexpectInt (low high : Int) :
      expectInt type low high (.int i) = expectInt type low high (.uint u) := by
    rw [expectInt, expectInt, hint, hint']
  have hexpectDouble : expectDouble type (.int i) = expectDouble type (.uint u) := by
    rw [expectDouble, expectDouble, hdouble, hdouble']
  have hexpectVarint : expectVarint type (.int i) = expectVarint type (.uint u) := by
    rw [expectVarint, expectVarint, hint, hint']
  cases s with
  | unsigned order width => rwa [encode, hexpectNat] at h
  | signed order width => rwa [encode, hexpectInt] at h
  | single order => rwa [encode, hexpectDouble] at h
  | double order => rwa [encode, hexpectDouble] at h
  | bool => cases h
  | varint => rwa [encode, hexpectVarint] at h
  | void => exact h

end Scalar

theorem Primitive.fitsWord (p : Primitive) : p.scalar.FitsWord := by
  cases p <;> simp [Primitive.scalar, Scalar.FitsWord]

end PacketCodec
