/-!
# Tables

A table is a list of named entries in order. Reading a name finds its first entry. Inserting
replaces the first entry of a name in place or appends, so a table built by insertion holds each name
once, in the order of first insertion.
-/

namespace PacketCodec

abbrev Table (α : Type) := List (String × α)

namespace Table

variable {α : Type}

def get? : Table α → String → Option α
  | [], _ => none
  | (key, a) :: rest, name => if key = name then some a else get? rest name

/-- The table with the first entry under `name` replaced, or a new last entry. -/
def insert : Table α → String → α → Table α
  | [], name, a => [(name, a)]
  | (key, b) :: rest, name, a =>
    if key = name then (key, a) :: rest else (key, b) :: insert rest name a

/-- The table with an entry added at the end, whatever names it has. -/
def push (t : Table α) (name : String) (a : α) : Table α :=
  t ++ [(name, a)]

/-- The table that results from inserting entries one by one. -/
def ofEntries (entries : List (String × α)) : Table α :=
  entries.foldl (fun t entry => t.insert entry.1 entry.2) []

def names (t : Table α) : List String :=
  t.map Prod.fst

@[simp]
theorem get?_nil (name : String) : get? ([] : Table α) name = none := rfl

@[simp]
theorem get?_cons (key : String) (a : α) (rest : Table α) (name : String) :
    get? ((key, a) :: rest) name = if key = name then some a else get? rest name := rfl

/-- An inserted entry is read back, and no other name is affected. -/
theorem get?_insert (t : Table α) (name : String) (a : α) (other : String) :
    (t.insert name a).get? other = if name = other then some a else t.get? other := by
  induction t with
  | nil => simp [insert]
  | cons entry rest ih =>
    obtain ⟨key, b⟩ := entry
    by_cases hk : key = name
    · subst hk
      by_cases ho : key = other <;> simp [insert, ho]
    · by_cases ho : key = other
      · subst ho
        simp [insert, hk, Ne.symm hk]
      · simp [insert, hk, ho, ih]

theorem names_insert (t : Table α) (name : String) (a : α) :
    (t.insert name a).names = if name ∈ t.names then t.names else t.names ++ [name] := by
  induction t with
  | nil => simp [insert, names]
  | cons entry rest ih =>
    obtain ⟨key, b⟩ := entry
    by_cases hk : key = name
    · simp [insert, names, hk]
    · simp only [names, List.map_cons, List.mem_cons, Ne.symm hk, false_or] at ih ⊢
      simp only [insert, hk, if_false, List.map_cons, ih]
      split <;> simp_all

theorem get?_eq_none_iff (t : Table α) (name : String) : t.get? name = none ↔ name ∉ t.names := by
  induction t with
  | nil => simp [names]
  | cons entry rest ih =>
    obtain ⟨key, b⟩ := entry
    by_cases hk : key = name
    · simp [names, hk]
    · simp only [names, get?_cons, hk, if_false, List.map_cons, List.mem_cons, Ne.symm hk, false_or]
      exact ih

theorem eq_map_get? {β : Type} {f : α → β} {name : String} (find : Table α → Option β)
    (hnil : find [] = none)
    (hcons : ∀ key a rest, find ((key, a) :: rest) = if key = name then some (f a) else find rest)
    (t : Table α) : find t = (t.get? name).map f := by
  induction t with
  | nil => exact hnil
  | cons entry rest ih =>
    obtain ⟨key, a⟩ := entry
    rw [hcons, get?_cons, ih]
    split <;> rfl

end Table

end PacketCodec
