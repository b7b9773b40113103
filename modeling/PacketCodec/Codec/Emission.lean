import PacketCodec.Error

/-!
# Emissions

What encoding writes does not depend on where it is written: an emission lists the pieces in order
and says why it stops early, if it does. Placing an emission writes its pieces one after the other into a
destination, up to the first that does not fit.
-/

namespace PacketCodec

/-- Bytes written at once, and the fields that they belong to, outermost first. -/
structure Piece where
  path : List String
  bytes : Bytes
  deriving Repr

/-- The pieces that encoding writes, and the error at which it stops. -/
structure Emission where
  pieces : List Piece
  failure : Option EncodeError

namespace Emission

def empty : Emission := ⟨[], none⟩

def piece (bs : Bytes) : Emission := ⟨[⟨[], bs⟩], none⟩

def fail (fault : EncodeFault) : Emission := ⟨[], some (.here fault)⟩

/-- One emission and then another. Nothing follows a failure. -/
def append (a b : Emission) : Emission :=
  match a.failure with
  | some e => ⟨a.pieces, some e⟩
  | none => ⟨a.pieces ++ b.pieces, b.failure⟩

instance : Append Emission := ⟨append⟩

/-- The emission seen from outside a field. -/
def within (name : String) (e : Emission) : Emission :=
  ⟨e.pieces.map fun p => ⟨name :: p.path, p.bytes⟩, e.failure.map (Located.within name)⟩

def bytes (e : Emission) : Bytes :=
  e.pieces.flatMap Piece.bytes

end Emission

/-- A destination after a write, and the offset behind the written bytes or the error. -/
structure Placement where
  dest : Bytes
  outcome : Except EncodeError Nat

/-- The bytes of the pieces that end by `limit` when they start at an offset, and the first piece that
does not. Nothing follows a piece that does not fit. -/
def fitting (limit : Nat) : List Piece → Nat → Bytes × Option Piece
  | [], _ => ([], none)
  | p :: rest, offset =>
    if offset + p.bytes.length ≤ limit then
      let (bs, rejected) := fitting limit rest (offset + p.bytes.length)
      (p.bytes ++ bs, rejected)
    else ([], some p)

def placePieces (pieces : List Piece) (dest : Bytes) (offset : Nat) : Placement :=
  let (bs, rejected) := fitting dest.length pieces offset
  let stop := offset + bs.length
  { dest := dest.overwrite offset bs
    outcome :=
      match rejected with
      | none => .ok stop
      | some p =>
        let needed := min (stop + p.bytes.length) Bytes.maxOffset
        .error ⟨p.path, .noRoom needed dest.length⟩ }

def Emission.place (e : Emission) (dest : Bytes) (offset : Nat) : Placement :=
  let placed := placePieces e.pieces dest offset
  match placed.outcome, e.failure with
  | .ok _, some failure => ⟨placed.dest, .error failure⟩
  | _, _ => placed

end PacketCodec
