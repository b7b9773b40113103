import PacketCodec.Bytes
import PacketCodec.Json.Basic

/-!
# JSON trees of a text

Reads a whole text as one tree. Of members with one name the last counts. The reader of trees is
given fuel for one step per character, which is more than any text needs.
-/

namespace PacketCodec.Json

def isBlank (c : Char) : Bool :=
  c = ' ' || c = '\n' || c = '\r' || c = '\t'

def skipBlanks (cs : List Char) : List Char := cs.dropWhile isBlank

def fourHex? (a b c d : Char) : Option Nat := do
  let a ← Bytes.hexValue? a
  let b ← Bytes.hexValue? b
  let c ← Bytes.hexValue? c
  let d ← Bytes.hexValue? d
  return 4096 * a + 256 * b + 16 * c + d

/-- Whether a number is the first half of a pair that stands for one character. -/
def isHighHalf (n : Nat) : Bool := 0xD800 ≤ n && n < 0xDC00

def isLowHalf (n : Nat) : Bool := 0xDC00 ≤ n && n < 0xE000

def joinHalves (high low : Nat) : Char :=
  Char.ofNat (0x10000 + 1024 * (high - 0xD800) + (low - 0xDC00))

def escaped? : Char → Option Char
  | '"' => some '"'
  | '\\' => some '\\'
  | '/' => some '/'
  | 'b' => some '\x08'
  | 'f' => some '\x0c'
  | 'n' => some '\n'
  | 'r' => some '\r'
  | 't' => some '\t'
  | _ => none

/-- The characters of a string up to its closing quote, and the text behind it. A character may be
given by its number in hexadecimal, one beyond four digits by a pair of halves. -/
def readString? : List Char → Option (List Char × List Char)
  | [] => none
  | '"' :: rest => some ([], rest)
  | '\\' :: 'u' :: a :: b :: c :: d :: rest => do
    let n ← fourHex? a b c d
    if isHighHalf n then
      match rest with
      | '\\' :: 'u' :: a :: b :: c :: d :: rest => do
        let low ← fourHex? a b c d
        if isLowHalf low then
          let (s, rest) ← readString? rest
          return (joinHalves n low :: s, rest)
        else none
      | _ => none
    else if isLowHalf n then none
    else
      let (s, rest) ← readString? rest
      return (Char.ofNat n :: s, rest)
  | '\\' :: e :: rest => do
    let c ← escaped? e
    let (s, rest) ← readString? rest
    return (c :: s, rest)
  | c :: rest =>
    if c.toNat < 32 ∨ c = '\\' then none
    else do
      let (s, rest) ← readString? rest
      return (c :: s, rest)

def digits (cs : List Char) : List Char × List Char :=
  (cs.takeWhile Char.isDigit, cs.dropWhile Char.isDigit)

def numberOfDigits (cs : List Char) : Nat :=
  cs.foldl (fun n c => 10 * n + (c.toNat - '0'.toNat)) 0

def fraction? (cs : List Char) : Option (List Char × List Char) :=
  match cs with
  | '.' :: rest =>
    let (ds, rest) := digits rest
    if ds.isEmpty then none else some (ds, rest)
  | _ => some ([], cs)

def exponent? (cs : List Char) : Option (Option Int × List Char) :=
  let signed (negative : Bool) (cs : List Char) : Option (Option Int × List Char) :=
    let (ds, rest) := digits cs
    let n := numberOfDigits ds
    if ds.isEmpty then none else some (some (if negative then -(n : Int) else n), rest)
  match cs with
  | c :: rest =>
    if c = 'e' ∨ c = 'E' then
      match rest with
      | '-' :: rest => signed true rest
      | '+' :: rest => signed false rest
      | _ => signed false rest
    else some (none, cs)
  | [] => some (none, cs)

def readNumber? (cs : List Char) : Option (JsonNumber × List Char) := do
  let (negative, cs) :=
    match cs with
    | '-' :: rest => (true, rest)
    | _ => (false, cs)
  let (whole, rest) := digits cs
  let wellFormed :=
    match whole with
    | [] => false
    | '0' :: _ :: _ => false
    | _ => true
  if !wellFormed then none
  else
    let (fraction, rest) ← fraction? rest
    let (exponent, rest) ← exponent? rest
    let n := numberOfDigits whole
    if fraction.isEmpty ∧ exponent = none ∧ ¬(negative ∧ n = 0) then
      return (.integer (if negative then -(n : Int) else n), rest)
    else
      let places : Int := fraction.length
      return (.decimal negative ⟨numberOfDigits (whole ++ fraction), exponent.getD 0 - places⟩, rest)

def word? : List Char → List Char → Option (List Char)
  | [], cs => some cs
  | w :: ws, c :: cs => if w = c then word? ws cs else none
  | _ :: _, [] => none

mutual

/-- The tree at the front of a text, and the text behind it. -/
def readTree? : Nat → List Char → Option (Json × List Char)
  | 0, _ => none
  | fuel + 1, cs =>
    match skipBlanks cs with
    | [] => none
    | '\x7b' :: rest =>
      match skipBlanks rest with
      | '\x7d' :: rest => some (.object [], rest)
      | rest => do
        let (members, rest) ← readMembers? fuel rest
        return (.object (Table.ofEntries members), rest)
    | '[' :: rest =>
      match skipBlanks rest with
      | ']' :: rest => some (.array [], rest)
      | rest => do
        let (items, rest) ← readItems? fuel rest
        return (.array items, rest)
    | '"' :: rest => do
      let (s, rest) ← readString? rest
      return (.string (String.ofList s), rest)
    | 't' :: rest => (word? ['r', 'u', 'e'] rest).map fun rest => (.bool true, rest)
    | 'f' :: rest => (word? ['a', 'l', 's', 'e'] rest).map fun rest => (.bool false, rest)
    | 'n' :: rest => (word? ['u', 'l', 'l'] rest).map fun rest => (.null, rest)
    | rest => (readNumber? rest).map fun (n, rest) => (.number n, rest)

def readItems? : Nat → List Char → Option (List Json × List Char)
  | 0, _ => none
  | fuel + 1, cs => do
    let (item, rest) ← readTree? fuel cs
    match skipBlanks rest with
    | ',' :: rest =>
      let (items, rest) ← readItems? fuel rest
      return (item :: items, rest)
    | ']' :: rest => return ([item], rest)
    | _ => none

def readMembers? : Nat → List Char → Option (List (String × Json) × List Char)
  | 0, _ => none
  | fuel + 1, cs =>
    match skipBlanks cs with
    | '"' :: rest => do
      let (name, rest) ← readString? rest
      match skipBlanks rest with
      | ':' :: rest =>
        let (item, rest) ← readTree? fuel rest
        let entry := (String.ofList name, item)
        match skipBlanks rest with
        | ',' :: rest =>
          let (members, rest) ← readMembers? fuel rest
          return (entry :: members, rest)
        | '\x7d' :: rest => return ([entry], rest)
        | _ => none
      | _ => none
    | _ => none

end

def parse? (text : String) : Option Json := do
  let cs := text.toList
  let (tree, rest) ← readTree? (cs.length + 1) cs
  if (skipBlanks rest).isEmpty then return tree else none

end PacketCodec.Json
