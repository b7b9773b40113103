import PacketCodec.Proofs.Codec.Scalar
import PacketCodec.Proofs.Value.Equality

/-!
# Reading what was written

The bytes of any value that a scalar takes are read again wherever they stand. What is read is equal to
the value, with three exceptions: a floating-point number is rounded, a void has forgotten its value, and
an integer of variable length is read as signed whichever way it was given.
-/

namespace PacketCodec

/-- Bytes stand at an offset of a buffer. -/
def Bytes.StandAt (bs buf : Bytes) (offset : Nat) : Prop :=
  ∃ pre post, buf = pre ++ bs ++ post ∧ pre.length = offset

section StandAt

variable {bs cs buf : Bytes} {offset : Nat}

theorem Bytes.StandAt.left (h : Bytes.StandAt (bs ++ cs) buf offset) : bs.StandAt buf offset := by
  obtain ⟨pre, post, rfl, rfl⟩ := h
  exact ⟨pre, cs ++ post, by simp, rfl⟩

theorem Bytes.StandAt.right (h : Bytes.StandAt (bs ++ cs) buf offset) :
    cs.StandAt buf (offset + bs.length) := by
  obtain ⟨pre, post, rfl, rfl⟩ := h
  exact ⟨pre ++ bs, post, by simp, List.length_append⟩

theorem Bytes.StandAt.takeBytes_eq (h : bs.StandAt buf offset) :
    takeBytes buf offset bs.length = .ok bs := by
  obtain ⟨pre, post, hbuf, hpre⟩ := h
  exact takeBytes_eq_ok.2 ⟨pre, post, hbuf, hpre, rfl⟩

theorem Bytes.StandAt.takeCounted_eq (h : bs.StandAt buf offset)
    (hmax : offset + bs.length ≤ Bytes.maxOffset) : takeCounted buf offset bs.length = .ok bs :=
  takeCounted_eq_ok.2 ⟨hmax, h.takeBytes_eq⟩

theorem Bytes.StandAt.eq_of_takeCounted {taken : Bytes} (h : bs.StandAt buf offset)
    (ht : takeCounted buf offset bs.length = .ok taken) : taken = bs :=
  Except.ok.inj ((takeCounted_eq_ok.1 ht).2.symm.trans h.takeBytes_eq)

end StandAt

namespace Scalar

variable {s : Scalar} {type : String} {value : Value}

/-- What the bytes of a value are read as. -/
def Reread : Scalar → Value → Value → Prop
  | .single _, _, w => ∃ x, w = .float x
  | .double _, _, w => ∃ x, w = .float x
  | .varint, value, w => ∃ i bits, value.asInt? = some i ∧ Varint.bits? i = some bits ∧
      w = .int (Int64.ofInt (Varint.toInt bits))
  | .void, _, w => w = .null
  | _, value, w => (w == value) = true

/-- A number under an integer of variable length fits 32 bits as a signed number. -/
def InRange : Scalar → Value → Prop
  | .varint, value => ∀ i, value.asInt? = some i → -0x80000000 ≤ i ∧ i < 0x80000000
  | _, _ => True

/-- A number under an integer of variable length is above the range of signed numbers of 32 bits. -/
def Overflows : Scalar → Value → Int → Prop
  | .varint, value, i => value.asInt? = some i ∧ 0x80000000 ≤ i
  | _, _, _ => False

theorem Overflows.asInt? {i : Int} (h : s.Overflows value i) : value.asInt? = some i := by
  cases s with
  | varint => exact h.1
  | _ => exact h.elim

private theorem bits_spec {i : Int} {bits : Nat} (h : Varint.bits? i = some bits) :
    bits < UInt32.size ∧ i < UInt32.size ∧
      Varint.toInt bits = if i < 0x80000000 then i else i - UInt32.size := by
  have hsize : (UInt32.size : Int) = 0x100000000 := rfl
  have hsize' : UInt32.size = 0x100000000 := rfl
  rw [Varint.bits?, hsize] at h
  split at h
  · rename_i hi
    cases h
    rw [Varint.toInt, hsize, hsize']
    refine ⟨by omega, hi.2, ?_⟩
    omega
  · cases h

private theorem toSigned_ofSigned {width : Nat} (hpos : 1 ≤ width) {i : Int}
    (hlow : -(Bytes.bound width / 2 : Nat) ≤ i) (hhigh : i < (Bytes.bound width / 2 : Nat)) :
    ofSigned width i < Bytes.bound width ∧ toSigned width (ofSigned width i) = i := by
  have heven : Bytes.bound width = 2 * (Bytes.bound width / 2) := by
    obtain ⟨width, rfl⟩ := Nat.exists_eq_add_of_le' hpos
    rw [Bytes.bound]
    omega
  rw [toSigned, ofSigned]
  generalize Bytes.bound width / 2 = half at heven hlow hhigh ⊢
  rw [heven]
  by_cases hi : 0 ≤ i
  · rw [Int.emod_eq_of_lt hi (by omega)]
    omega
  · have hmod : i % (2 * half : Nat) = i + (2 * half : Nat) := by
      rw [← Int.add_emod_right, Int.emod_eq_of_lt (by omega) (by omega)]
    rw [hmod]
    omega

/-- A scalar reads the same value from bytes wherever they stand. -/
def Reads (s : Scalar) (bs : Bytes) (w : Value) : Prop :=
  ∀ buf offset, bs.StandAt buf offset → s.read buf offset = .ok (w, bs.length)

private theorem reads_of_takeBytes {width : Nat} {f : Bytes → Value}
    (hread : ∀ buf offset, s.read buf offset = (do
      let bs ← takeBytes buf offset width
      return (f bs, width)))
    {bs : Bytes} (hlength : bs.length = width) : s.Reads bs (f bs) := by
  intro buf offset h
  rw [hread, ← hlength, h.takeBytes_eq]
  rfl

private theorem reads_varint {i : Int} {bits : Nat} (h : Varint.bits? i = some bits) :
    Scalar.varint.Reads (Varint.encode bits) (.int (Int64.ofInt (Varint.toInt bits))) := by
  rintro _ _ ⟨pre, post, rfl, rfl⟩
  rw [read, Varint.read_encode (bits_spec h).1]
  rfl

/-- The bytes of a value are read wherever they stand. -/
theorem reads_of_encode (hs : s.FitsWord) {bs : Bytes} (h : s.encode type value = .ok bs) :
    ∃ w, s.Reads bs w ∧ s.Reread value w := by
  cases s with
  | unsigned order width =>
    obtain ⟨n, hn, h⟩ := Except.bind_eq_ok.1 h
    cases h
    refine ⟨_, reads_of_takeBytes (fun _ _ => rfl) (Bytes.length_ofNat order width n), ?_⟩
    unfold expectNat at hn
    split at hn
    · cases hn
    · rename_i m hm
      split at hn
      · rename_i hlt
        cases hn
        rw [Bytes.toNat_ofNat order hlt]
        exact Value.beq_of_asNat? hm
      · cases hn
  | signed order width =>
    obtain ⟨i, hi, h⟩ := Except.bind_eq_ok.1 h
    cases h
    refine ⟨_, reads_of_takeBytes (fun _ _ => rfl) (Bytes.length_ofNat order width _), ?_⟩
    unfold expectInt at hi
    split at hi
    · cases hi
    · rename_i j hj
      split at hi
      · rename_i hrange
        cases hi
        obtain ⟨hlt, hsame⟩ := toSigned_ofSigned hs.1 hrange.1 hrange.2
        rw [Bytes.toNat_ofNat order hlt, hsame]
        exact Value.beq_of_asInt? hj
      · cases hi
  | single order =>
    obtain ⟨x, _, h⟩ := Except.bind_eq_ok.1 h
    cases h
    exact ⟨_, reads_of_takeBytes (fun _ _ => rfl) (Bytes.length_ofNat order 4 _), _, rfl⟩
  | double order =>
    obtain ⟨x, _, h⟩ := Except.bind_eq_ok.1 h
    cases h
    exact ⟨_, reads_of_takeBytes (fun _ _ => rfl) (Bytes.length_ofNat order 8 _), _, rfl⟩
  | bool =>
    obtain ⟨b, hb, h⟩ := Except.bind_eq_ok.1 h
    cases h
    refine ⟨_, reads_of_takeBytes (fun _ _ => rfl) rfl, ?_⟩
    cases value with
    | bool b' =>
      cases hb
      cases b <;> rfl
    | _ => cases hb
  | varint =>
    obtain ⟨bits, hb, h⟩ := Except.bind_eq_ok.1 h
    cases h
    unfold expectVarint at hb
    split at hb
    · cases hb
    · rename_i i hi
      split at hb
      · cases hb
      · rename_i bits' hbits
        cases hb
        exact ⟨_, reads_varint hbits, i, bits, hi, hbits, rfl⟩
  | void =>
    cases h
    exact ⟨.null, fun _ _ _ => rfl, rfl⟩

namespace Reread

variable {w : Value}

private theorem beq_of_varint {i : Int} {bits : Nat} (hi : value.asInt? = some i)
    (hbits : Varint.bits? i = some bits) (hlt : i < 0x80000000) :
    (Value.int (Int64.ofInt (Varint.toInt bits)) == value) = true := by
  rw [(bits_spec hbits).2.2, if_pos hlt]
  exact Value.beq_of_asInt? hi

theorem beq (h : s.Reread value w) (hf : ¬ s.IsFloat) (hr : s.InRange value)
    (hnull : s = .void → value = .null) : (w == value) = true := by
  cases s with
  | unsigned order width => exact h
  | signed order width => exact h
  | single order => exact absurd trivial hf
  | double order => exact absurd trivial hf
  | bool => exact h
  | varint =>
    obtain ⟨i, bits, hi, hbits, rfl⟩ := h
    exact beq_of_varint hi hbits (hr i hi).2
  | void =>
    rw [hnull rfl, show w = .null from h]
    rfl

private theorem asInt?_of_varint {i : Int} {bits : Nat} (hbits : Varint.bits? i = some bits)
    (hlarge : 0x80000000 ≤ i) :
    (Value.int (Int64.ofInt (Varint.toInt bits))).asInt? = some (i - UInt32.size) := by
  have hsize : (UInt32.size : Int) = 0x100000000 := rfl
  obtain ⟨_, hbound, hval⟩ := bits_spec hbits
  rw [if_neg (by omega)] at hval
  rw [Value.asInt?, Int64.toInt_ofInt_of_le (by omega) (by omega), hval]

/-- What is read selects the branch that the value selects, or else it is the number that a number above the
signed range is read as. -/
theorem branchKey?_or_overflows (h : s.Reread value w) :
    (∀ key, w.branchKey? = some key → value.branchKey? = some key) ∨
      ∃ i, s.Overflows value i ∧ w.asInt? = some (i - UInt32.size) := by
  cases s with
  | single order =>
    obtain ⟨x, rfl⟩ := h
    exact .inl fun key hk => nomatch hk
  | double order =>
    obtain ⟨x, rfl⟩ := h
    exact .inl fun key hk => nomatch hk
  | varint =>
    obtain ⟨i, bits, hi, hbits, rfl⟩ := h
    by_cases hsmall : i < 0x80000000
    · refine .inl fun key hk => ?_
      rw [← Value.branchKey?_of_beq (beq_of_varint hi hbits hsmall), hk]
    · have hlarge : 0x80000000 ≤ i := by omega
      exact .inr ⟨i, ⟨hi, hlarge⟩, asInt?_of_varint hbits hlarge⟩
  | void =>
    rw [show w = .null from h]
    exact .inl fun key hk => nomatch hk
  | _ =>
    refine .inl fun key hk => ?_
    rw [← Value.branchKey?_of_beq h, hk]

/-- A count that is read as a number at all is read as the number that it was. A varint that is too large
for a signed number is read as a negative one. -/
theorem eq_toNat {u : UInt64} {n : Nat} (h : s.Reread (.uint u) w) (hn : w.asNat? = some n) :
    n = u.toNat := by
  cases s with
  | single order =>
    obtain ⟨x, rfl⟩ := h
    cases hn
  | double order =>
    obtain ⟨x, rfl⟩ := h
    cases hn
  | varint =>
    obtain ⟨i, bits, hi, hbits, rfl⟩ := h
    obtain ⟨_, hbound, _⟩ := bits_spec hbits
    by_cases hsmall : i < 0x80000000
    · have hbeq := beq_of_varint hi hbits hsmall
      exact Option.some.inj (hn.symm.trans (Value.asNat?_of_beq_uint hbeq))
    · have hsize : (UInt32.size : Int) = 0x100000000 := rfl
      have hint := asInt?_of_varint hbits (by omega)
      rw [Value.asInt?] at hint
      rw [Value.asNat?, Option.some.inj hint, if_neg (by omega)] at hn
      cases hn
  | void =>
    cases (show w = .null from h)
    cases hn
  | _ => exact Option.some.inj (hn.symm.trans (Value.asNat?_of_beq_uint h))

end Reread

end Scalar

theorem Codec.reads_of_writes {p : Primitive} {scope : Scope} {value : Value} {bs : Bytes}
    (h : ((Codec.scalar p).emit scope value).Writes bs) :
    ∃ w, p.scalar.Reads bs w ∧ p.scalar.Reread value w := by
  rw [emit] at h
  obtain ⟨bs', he, h⟩ := h.of_ofExcept
  cases h.unique (Scalar.writes_pieces he)
  exact Scalar.reads_of_encode p.fitsWord he

end PacketCodec
