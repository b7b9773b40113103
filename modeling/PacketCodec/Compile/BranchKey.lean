import PacketCodec.Bytes

/-!
# Branch keys

A branch is declared under a key. A key that is a hexadecimal number after `0x` or `0X` stands for the
decimal spelling of that number, if it fits 64 bits; any other key stands for itself.
-/

namespace PacketCodec.BranchKey

/-- The number that hexadecimal digits spell after a number read so far, if it fits 64 bits. -/
def hexNumber? (sofar : Nat) : List Char → Option Nat
  | [] => some sofar
  | c :: rest =>
    match Bytes.hexValue? c with
    | none => none
    | some digit =>
      let n := 16 * sofar + digit
      if n < UInt64.size then hexNumber? n rest else none

/-- The number that at least one hexadecimal digit spells; a plus sign may precede it. -/
def unsignedHex? : List Char → Option Nat
  | [] => none
  | ['+'] => none
  | '+' :: digits => hexNumber? 0 digits
  | digits => hexNumber? 0 digits

def hexDigits? : List Char → Option (List Char)
  | '0' :: 'x' :: digits => some digits
  | '0' :: 'X' :: digits => some digits
  | _ => none

/-- The key that a declared key stands for. -/
def normalize (key : String) : String :=
  match (hexDigits? key.toList).bind unsignedHex? with
  | some n => toString n
  | none => key

end PacketCodec.BranchKey
