import Mathlib.Data.List.Induction
import Mathlib.Data.List.Nodup
import PacketCodec.Value.Basic

/-!
# Tables as ordered maps

A table that only insertions have made holds each name once, where it was first inserted, with what was inserted
last. Nothing else is left of the history: one that was collected, and then inserted into, is the table collected
from everything.
-/

namespace PacketCodec

namespace Table

variable {α : Type} {t before after : Table α} {history : List (String × α)} {name : String} {a b : α}

/-- The first entry under a name. -/
def FirstEntry (t : Table α) (name : String) (a : α) : Prop :=
  ∃ before after, t = before ++ (name, a) :: after ∧ name ∉ names before

/-- The last entry under a name. -/
def LastEntry (t : Table α) (name : String) (a : α) : Prop :=
  ∃ before after, t = before ++ (name, a) :: after ∧ name ∉ names after

/-- A table made by insertions, and the history of these, the oldest first. It starts empty or as a collection. -/
inductive Built : List (String × α) → Table α → Prop
  | new : Built [] []
  | collected (entries : List (String × α)) : Built entries (ofEntries entries)
  | inserted {history : List (String × α)} {t : Table α} (h : Built history t) (name : String) (a : α) :
    Built (history ++ [(name, a)]) (t.insert name a)

theorem get?_eq_some_iff : t.get? name = some a ↔ t.FirstEntry name a := by
  constructor
  · intro h
    induction t with
    | nil => cases h
    | cons entry rest ih =>
      obtain ⟨key, b⟩ := entry
      rw [get?_cons] at h
      by_cases hk : key = name
      · rw [if_pos hk] at h
        obtain rfl := Option.some.inj h
        exact ⟨[], rest, by rw [hk]; rfl, List.not_mem_nil⟩
      · rw [if_neg hk] at h
        obtain ⟨before, after, rfl, hbefore⟩ := ih h
        refine ⟨(key, b) :: before, after, rfl, ?_⟩
        simp only [names, List.map_cons, List.mem_cons, not_or]
        exact ⟨Ne.symm hk, hbefore⟩
  · rintro ⟨before, after, rfl, hbefore⟩
    induction before with
    | nil => simp
    | cons entry before ih =>
      simp only [names, List.map_cons, List.mem_cons, not_or] at hbefore
      rw [List.cons_append, get?_cons, if_neg (Ne.symm hbefore.1)]
      exact ih hbefore.2

theorem firstEntry_reverse : FirstEntry t.reverse name a ↔ t.LastEntry name a := by
  constructor
  · rintro ⟨before, after, ht, hbefore⟩
    refine ⟨after.reverse, before.reverse, ?_, ?_⟩
    · rw [List.reverse_eq_iff.1 ht]
      simp
    · simpa [names] using hbefore
  · rintro ⟨before, after, rfl, hafter⟩
    exact ⟨after.reverse, before.reverse, by simp, by simpa [names] using hafter⟩

theorem insert_of_not_mem (h : name ∉ t.names) : t.insert name a = t ++ [(name, a)] := by
  induction t with
  | nil => rfl
  | cons entry rest ih =>
    simp only [names, List.map_cons, List.mem_cons, not_or] at h
    rw [insert, if_neg (Ne.symm h.1), ih h.2]
    rfl

theorem insert_of_first (h : name ∉ before.names) :
    insert (before ++ (name, b) :: after) name a = before ++ (name, a) :: after := by
  induction before with
  | nil => exact if_pos rfl
  | cons entry before ih =>
    simp only [names, List.map_cons, List.mem_cons, not_or] at h
    rw [List.cons_append, insert, if_neg (Ne.symm h.1), ih h.2]
    rfl

theorem nodup_names_insert (h : t.names.Nodup) : (t.insert name a).names.Nodup := by
  rw [names_insert]
  by_cases hmem : name ∈ t.names
  · rwa [if_pos hmem]
  · rw [if_neg hmem, ← List.concat_eq_append]
    exact List.Nodup.concat hmem h

theorem ofEntries_append (history more : List (String × α)) :
    ofEntries (history ++ more) = more.foldl (fun t entry => t.insert entry.1 entry.2) (ofEntries history) :=
  List.foldl_append

theorem ofEntries_concat (history : List (String × α)) (name : String) (a : α) :
    ofEntries (history ++ [(name, a)]) = (ofEntries history).insert name a :=
  ofEntries_append history [(name, a)]

theorem Built.eq_ofEntries (h : Built history t) : t = ofEntries history := by
  induction h with
  | new => rfl
  | collected entries => rfl
  | inserted h name a ih => rw [ofEntries_concat, ih]

theorem nodup_names_ofEntries (history : List (String × α)) : (ofEntries history).names.Nodup := by
  induction history using List.reverseRecOn with
  | nil => exact List.nodup_nil
  | append_singleton history entry ih =>
    rw [ofEntries_concat]
    exact nodup_names_insert ih

/-- Names stand in the order in which they first came. -/
theorem names_ofEntries (history : List (String × α)) :
    (ofEntries history).names = (history.map Prod.fst).eraseDups := by
  induction history using List.reverseRecOn with
  | nil => rfl
  | append_singleton history entry ih =>
    rw [ofEntries_concat, names_insert, ih, List.map_append, List.eraseDups_append]
    simp only [List.mem_eraseDups]
    by_cases hmem : entry.1 ∈ history.map Prod.fst
    · simp [List.removeAll, hmem]
    · simp [List.removeAll, hmem, List.eraseDups_cons]

theorem get?_ofEntries (history : List (String × α)) (name : String) :
    (ofEntries history).get? name = get? history.reverse name := by
  induction history using List.reverseRecOn with
  | nil => rfl
  | append_singleton history entry ih =>
    rw [ofEntries_concat, get?_insert, List.reverse_concat, get?_cons, ih]

end Table

/-- A record that insertions have made is an ordered map. Its names are distinct and in the order in which they were
first inserted; a name is read as what was inserted last under it, and as nothing if it never was. Inserting
once more replaces the value of a name in place or adds the name at the end, and leaves all else alone. The record is
the one collected from its history, and further insertions are further entries of the collection. -/
theorem Record.insertion_ordered {history : List (String × Value)} {r : Record} (h : Table.Built history r) :
    (Table.names r).Nodup ∧ Table.names r = (history.map Prod.fst).eraseDups ∧
    (∀ name v, Table.get? r name = some v ↔ Table.LastEntry history name v) ∧
    (∀ name, Table.get? r name = none ↔ name ∉ history.map Prod.fst) ∧
    (∀ name v, (name ∉ Table.names r → Table.insert r name v = r ++ [(name, v)]) ∧
      (∀ before old after, r = before ++ (name, old) :: after →
        Table.insert r name v = before ++ (name, v) :: after) ∧
      ∀ other, other ≠ name → Table.get? (Table.insert r name v) other = Table.get? r other) ∧
    ∀ more, Table.ofEntries (history ++ more) =
      more.foldl (fun r entry => Table.insert r entry.1 entry.2) r := by
  obtain rfl := h.eq_ofEntries
  have hnodup := Table.nodup_names_ofEntries history
  have hnames := Table.names_ofEntries history
  refine ⟨hnodup, hnames, fun name v => ?_, fun name => ?_, fun name v => ⟨?_, ?_, ?_⟩, ?_⟩
  · rw [Table.get?_ofEntries, Table.get?_eq_some_iff, Table.firstEntry_reverse]
  · rw [Table.get?_eq_none_iff, hnames, List.mem_eraseDups]
  · exact Table.insert_of_not_mem
  · intro before old after hr
    -- Names are distinct, so an entry under the name is the first.
    have hbefore : name ∉ Table.names before := by
      rw [hr] at hnodup
      simp only [Table.names, List.map_append, List.map_cons] at hnodup
      exact fun hmem => (List.nodup_append.1 hnodup).2.2 name hmem name List.mem_cons_self rfl
    rw [hr, Table.insert_of_first hbefore]
  · intro other hother
    rw [Table.get?_insert, if_neg (Ne.symm hother)]
  · exact Table.ofEntries_append history

theorem Record.reading_insertion_ordered :
    let r : Record := Table.insert (Table.ofEntries [("a", .uint 1), ("b", .uint 2)]) "a" (.uint 9)
    Table.Built [("a", .uint 1), ("b", .uint 2), ("a", .uint 9)] r ∧ Table.names r = ["a", "b"] ∧
      Table.get? r "a" = some (.uint 9) ∧ Table.get? r "c" = none ∧
      Table.insert r "c" .null = r ++ [("c", .null)] ∧
      Table.insert r "b" .null = [("a", .uint 9), ("b", .null)] ∧
      Table.get? (Table.insert r "b" .null) "a" = Table.get? r "a" := by
  have hbuilt := (Table.Built.collected [("a", Value.uint 1), ("b", .uint 2)]).inserted "a" (.uint 9)
  obtain ⟨_, hnames, hlast, hnever, hinsert, _⟩ := Record.insertion_ordered hbuilt
  refine ⟨hbuilt, hnames, ?_, ?_, ?_, ?_, ?_⟩
  · exact (hlast "a" _).2 ⟨[("a", .uint 1), ("b", .uint 2)], [], rfl, List.not_mem_nil⟩
  · exact (hnever "c").2 (by decide)
  · exact (hinsert "c" .null).1 (by decide)
  · exact (hinsert "b" .null).2.1 [("a", .uint 9)] (.uint 2) [] rfl
  · exact (hinsert "b" .null).2.2 "a" (by decide)

end PacketCodec
