import PacketCodec.Text.Unprintable

/-!
# Quoted text

Text between double quotes. A quote, a backslash, a tab, a line end and the zero character have short
escapes; any other character without a printed form is given by its number in hexadecimal.
-/

namespace PacketCodec.Text

/-- A character by its number: lower-case hexadecimal digits between braces. -/
def numbered (c : Char) : List Char :=
  ['\\', 'u', '\x7b'] ++ Nat.toDigits 16 c.toNat ++ ['\x7d']

def quotedChar (c : Char) : List Char :=
  match c with
  | '\x00' => ['\\', '0']
  | '\t' => ['\\', 't']
  | '\r' => ['\\', 'r']
  | '\n' => ['\\', 'n']
  | '"' => ['\\', '"']
  | '\\' => ['\\', '\\']
  | c => if isUnprintable c then numbered c else [c]

def quoted (text : String) : String :=
  String.ofList ('"' :: text.toList.flatMap quotedChar ++ ['"'])

end PacketCodec.Text
