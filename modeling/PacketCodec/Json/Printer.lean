import PacketCodec.Json.Basic

/-!
# JSON text of a tree

Compact text. A decimal is positional while its point lies near its digits, and always shows that it
is no integer.
-/

namespace PacketCodec

namespace Decimal

/-- The text of a decimal, its sign aside: positional where the first digit stands from five places
behind the point to sixteen before it, else one digit, the others and an exponent. -/
def jsonText (d : Decimal) : String :=
  let digits := Nat.toDigits 10 d.digits
  let point : Int := digits.length + d.exponent
  if d.digits = 0 then "0.0"
  else if -5 < point ∧ point ≤ 16 then
    if 0 ≤ d.exponent then d.positional ++ ".0" else d.positional
  else
    let exponent := toString (point - 1)
    match digits with
    | [] => "0.0"
    | [c] => String.ofList [c] ++ "e" ++ exponent
    | c :: rest => String.ofList (c :: '.' :: rest) ++ "e" ++ exponent

end Decimal

def JsonNumber.render : JsonNumber → String
  | .integer i => toString i
  | .decimal negative magnitude => (if negative then "-" else "") ++ magnitude.jsonText

namespace Json

def fourHexDigits (n : Nat) : List Char :=
  [Nat.digitChar (n / 4096 % 16), Nat.digitChar (n / 256 % 16), Nat.digitChar (n / 16 % 16),
    Nat.digitChar (n % 16)]

def escapedChar (c : Char) : List Char :=
  match c with
  | '"' => ['\\', '"']
  | '\\' => ['\\', '\\']
  | '\n' => ['\\', 'n']
  | '\r' => ['\\', 'r']
  | '\t' => ['\\', 't']
  | c => if c.toNat < 32 then '\\' :: 'u' :: fourHexDigits c.toNat else [c]

def quoted (s : String) : String :=
  String.ofList ('"' :: s.toList.flatMap escapedChar ++ ['"'])

mutual

def render : Json → String
  | .null => "null"
  | .bool b => if b then "true" else "false"
  | .number n => n.render
  | .string s => quoted s
  | .array items => "[" ++ ",".intercalate (renderItems items) ++ "]"
  | .object members => "\x7b" ++ ",".intercalate (renderMembers members) ++ "\x7d"

def renderItems : List Json → List String
  | [] => []
  | item :: rest => render item :: renderItems rest

def renderMembers : List (String × Json) → List String
  | [] => []
  | (name, item) :: rest => (quoted name ++ ":" ++ render item) :: renderMembers rest

end

end Json

end PacketCodec
