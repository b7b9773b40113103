import PacketCodec.Error
import PacketCodec.Schema.Basic
import PacketCodec.Scope

/-!
# Codecs

A codec is a schema in which every reference is resolved, every anonymous member is inlined and every
branch key is normalized. Decoding, encoding and measuring follow its structure.

A codec that is referred to in many places is shared, so a walk over all of it may take time without
bound. A switch therefore keeps the size that its alternatives have in common, as found when it is put
together, and the fixed size of a codec is read off its outermost layer.
-/

namespace PacketCodec

inductive Codec where
  | scalar (p : Primitive)
  | text (count : Codec)
  | block (length : Nat)
  | countedBlock (count : Codec)
  | option (inner : Codec)
  | array (element : Codec) (length : Nat)
  | countedArray (count element : Codec)
  | container (fields : List (String × Codec))
  /-- The branch that the discriminant selects, or the default. `size` is the number of bytes of every
  value, where all alternatives have the same. -/
  | switch (on : Discriminant) (branches : List (String × Codec)) (default : Codec)
      (size : Option Nat)
  deriving Inhabited

structure Decoded where
  value : Value
  size : Nat

namespace Value

/-- How a value is spelled as a branch key, if its kind can select a branch. -/
def branchKey? : Value → Option String
  | .int i => some (toString i.toInt)
  | .uint u => some (toString u.toNat)
  | .bool b => some (if b then "true" else "false")
  | .string s => some s
  | _ => none

end Value

namespace Discriminant

def value (on : Discriminant) (scope : Scope) : Except DiscriminantFault Value :=
  match on with
  | .constant v => .ok v
  | .field path =>
    match scope.lookup path with
    | some v => .ok v
    | none => .error (.missing path)

def key (on : Discriminant) (scope : Scope) : Except DiscriminantFault String := do
  let v ← on.value scope
  match v.branchKey? with
  | some key => return key
  | none => throw (.unsuitable v.kind)

end Discriminant

namespace Codec

/-- The number of bytes of every value of a codec, where the codec alone tells it. -/
def fixedSize : Codec → Option Nat
  | .scalar p => p.scalar.fixedSize
  | .switch _ _ _ size => size
  | _ => none

/-- The fixed size that the default and every branch have in common. -/
def commonSize (branches : List (String × Codec)) (default : Codec) : Option Nat :=
  match default.fixedSize with
  | some n => if branches.all fun branch => branch.2.fixedSize == some n then some n else none
  | none => none

/-- The switch between branches, with the size that they have in common. -/
def ofBranches (on : Discriminant) (branches : List (String × Codec)) (default : Codec) : Codec :=
  .switch on branches default (commonSize branches default)

end Codec

end PacketCodec
