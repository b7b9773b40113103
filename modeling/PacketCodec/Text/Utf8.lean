import PacketCodec.Bytes

/-!
# UTF-8 text

Bytes are text when they are the encoding of some characters. Where they are not, the first fault is
located by a machine that reads one byte at a time and knows how many continuation bytes are owed
and in which range the next one must lie.
-/

namespace PacketCodec.Utf8

/-- The first place at which bytes stop being text. -/
inductive Fault where
  /-- `count` bytes from `index` on begin no character. -/
  | invalid (count index : Nat)
  /-- The bytes end inside the character that starts at `index`. -/
  | incomplete (index : Nat)
  deriving DecidableEq, Repr

/-- The bytes still owed to the current character, and the range of the next one. -/
structure State where
  owed : Nat
  low : UInt8
  high : UInt8
  deriving DecidableEq, Repr

def State.start : State := ⟨0, 0x80, 0xBF⟩

def first (b : UInt8) : Option State :=
  if b ≤ 0x7F then some .start
  else if 0xC2 ≤ b ∧ b ≤ 0xDF then some ⟨1, 0x80, 0xBF⟩
  else if b = 0xE0 then some ⟨2, 0xA0, 0xBF⟩
  else if b = 0xED then some ⟨2, 0x80, 0x9F⟩
  else if 0xE1 ≤ b ∧ b ≤ 0xEF then some ⟨2, 0x80, 0xBF⟩
  else if b = 0xF0 then some ⟨3, 0x90, 0xBF⟩
  else if 0xF1 ≤ b ∧ b ≤ 0xF3 then some ⟨3, 0x80, 0xBF⟩
  else if b = 0xF4 then some ⟨3, 0x80, 0x8F⟩
  else none

/-- The state after one more byte, unless no character goes on with it. -/
def State.step (state : State) (b : UInt8) : Option State :=
  match state.owed with
  | 0 => first b
  | owed + 1 => if state.low ≤ b ∧ b ≤ state.high then some ⟨owed, 0x80, 0xBF⟩ else none

/-- The first fault of the rest of a sequence, when the current character began at `start` and
the next byte stands at `index`. -/
def faultFrom (state : State) (start index : Nat) : Bytes → Option Fault
  | [] => if state.owed = 0 then none else some (.incomplete start)
  | b :: rest =>
    match state.step b with
    | some next => faultFrom next (if next.owed = 0 then index + 1 else start) (index + 1) rest
    | none => some (.invalid (max 1 (index - start)) start)

def fault? (bs : Bytes) : Option Fault :=
  faultFrom .start 0 0 bs

/-- The text that bytes encode, or where they stop being text. -/
def decode (bs : Bytes) : Except Fault String :=
  match String.fromUTF8? bs.toByteArray with
  | some text => .ok text
  | none => .error ((fault? bs).getD (.invalid 1 0))

def encode (text : String) : Bytes :=
  text.toByteArray.data.toList

def Fault.message : Fault → String
  | .invalid count index => s!"invalid utf-8 sequence of {count} bytes from index {index}"
  | .incomplete index => s!"incomplete utf-8 byte sequence from index {index}"

theorem decode_encode (text : String) : decode (encode text) = .ok text := by
  have h : (encode text).toByteArray = text.toByteArray := by
    apply ByteArray.ext
    simp [encode]
  have hv : text.toByteArray.IsValidUTF8 := text.isValidUTF8
  simp [decode, h, String.fromUTF8?, hv, String.fromUTF8]

theorem encode_of_decode {bs : Bytes} {text : String} (h : decode bs = .ok text) :
    encode text = bs := by
  unfold decode at h
  split at h
  · rename_i t ht
    cases h
    unfold String.fromUTF8? at ht
    split at ht
    · cases ht
      simp [encode, String.fromUTF8]
    · cases ht
  · cases h

end PacketCodec.Utf8
