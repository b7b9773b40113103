import PacketCodec.Value.Basic

/-!
# Scopes

The records that enclose the value in work, the innermost first. A path steps out of records by `..`
and then names fields, descending into nested records; empty and `.` segments mean nothing.
-/

namespace PacketCodec

/-- The enclosing records, innermost first. -/
abbrev Scope := List Record

namespace Path

def split : List Char → List (List Char)
  | [] => [[]]
  | '/' :: rest => [] :: split rest
  | c :: rest =>
    match split rest with
    | [] => [[c]]
    | part :: parts => (c :: part) :: parts

def counts (segment : String) : Bool :=
  segment != "" && segment != "."

def segments (path : String) : List String :=
  ((split path.toList).map String.ofList).filter counts

end Path

namespace Scope

/-- The value that names reach through nested records. -/
def descend : Value → List String → Option Value
  | value, [] => some value
  | value, name :: rest => do
    let fields ← value.asRecord?
    let field ← Table.get? fields name
    descend field rest

/-- The value that segments reach from a scope. Once a name has been followed, `..` is a name like
any other. -/
def resolve : Scope → List String → Option Value
  | _, [] => none
  | scope, name :: rest =>
    match scope with
    | [] => none
    | frame :: outer =>
      if name = ".." then resolve outer rest
      else do
        let field ← Table.get? frame name
        descend field rest

def lookup (scope : Scope) (path : String) : Option Value :=
  resolve scope (Path.segments path)

end Scope

end PacketCodec
