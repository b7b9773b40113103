import PacketCodec.Schema.Primitive
import PacketCodec.Value.Basic

/-!
# Schemas

A schema is a tree that describes one piece of binary layout. Containers may hold anonymous members,
which inlining flattens; references name types of a registry.
-/

namespace PacketCodec

/-- A member of a container. The name of an anonymous member plays no part. -/
structure Field (α : Type) where
  name : String
  type : α
  anonymous : Bool := false
  deriving Repr

inductive Discriminant where
  /-- A path through the enclosing records. -/
  | field (path : String)
  | constant (value : Value)

/-- One piece of binary layout. -/
inductive Schema where
  /-- A named type: a registered one, or else a primitive. -/
  | ref (name : String)
  | primitive (p : Primitive)
  /-- Text after its length in bytes. -/
  | text (countType : Schema)
  /-- Bytes of a fixed length, or after their length. -/
  | buffer (count : Option UInt64) (countType : Option Schema)
  /-- A presence byte, then the inner value if there is one. -/
  | option (inner : Schema)
  /-- Elements in a fixed number, or after their number. -/
  | array (element : Schema) (count : Option UInt64) (countType : Option Schema)
  | container (fields : List (Field Schema))
  /-- The branch that the discriminant selects, or the default. -/
  | switch (on : Discriminant) (branches : List (String × Schema)) (default : Option Schema)

/-- What decides how many items an array or a buffer has. -/
inductive Length (α : Type) where
  /-- The schema. -/
  | fixed (count : UInt64)
  /-- A count of the given type in front of the items. -/
  | counted (type : α)
  deriving Repr

namespace Discriminant

protected def beq : Discriminant → Discriminant → Bool
  | .field p, .field q => p == q
  | .constant v, .constant w => v == w
  | _, _ => false

instance : BEq Discriminant := ⟨Discriminant.beq⟩

end Discriminant

namespace Schema

/-- A short description: the name of a named or primitive type, else the shape. -/
def describe : Schema → String
  | .ref name => name
  | .primitive p => p.name
  | .text _ => "pstring"
  | .buffer _ _ => "buffer"
  | .option _ => "option"
  | .array _ _ _ => "array"
  | .container _ => "container"
  | .switch _ _ _ => "switch"

mutual

protected def beq : Schema → Schema → Bool
  | .ref m, .ref n => m == n
  | .primitive p, .primitive q => p == q
  | .text s, .text t => Schema.beq s t
  | .buffer m s, .buffer n t => m == n && beqOption s t
  | .option s, .option t => Schema.beq s t
  | .array a m s, .array b n t => Schema.beq a b && m == n && beqOption s t
  | .container s, .container t => beqFields s t
  | .switch c s d, .switch e t f => c == e && beqBranches s t && beqOption d f
  | _, _ => false

def beqOption : Option Schema → Option Schema → Bool
  | none, none => true
  | some s, some t => Schema.beq s t
  | _, _ => false

def beqFields : List (Field Schema) → List (Field Schema) → Bool
  | [], [] => true
  | ⟨m, s, a⟩ :: ss, ⟨n, t, b⟩ :: ts => m == n && Schema.beq s t && a == b && beqFields ss ts
  | _, _ => false

def beqBranches : List (String × Schema) → List (String × Schema) → Bool
  | [], [] => true
  | (k, s) :: ss, (l, t) :: ts => k == l && Schema.beq s t && beqBranches ss ts
  | _, _ => false

end

instance : BEq Schema := ⟨Schema.beq⟩

mutual

/-- The number of levels of a schema. References count as leaves. -/
def depth : Schema → Nat
  | .ref _ => 1
  | .primitive _ => 1
  | .text t => depth t + 1
  | .buffer _ t => optionDepth t + 1
  | .option t => depth t + 1
  | .array e _ t => max (depth e) (optionDepth t) + 1
  | .container fields => fieldsDepth fields + 1
  | .switch _ branches default => max (branchesDepth branches) (optionDepth default) + 1

def optionDepth : Option Schema → Nat
  | none => 0
  | some s => depth s

def fieldsDepth : List (Field Schema) → Nat
  | [] => 0
  | ⟨_, s, _⟩ :: rest => max (depth s) (fieldsDepth rest)

def branchesDepth : List (String × Schema) → Nat
  | [] => 0
  | (_, s) :: rest => max (depth s) (branchesDepth rest)

end

end Schema

end PacketCodec
