import Mathlib.Data.List.Forall2
import PacketCodec.Codec.Basic
import PacketCodec.Proofs.Except

/-!
# Looking into scopes

A path of one name looks into the innermost record, and a discriminant has a key where it leads to a value
that is spelled as one. Records grow at their end while a container is decoded. What is found in a scope is
found all the same when its records have grown, so a switch that was decoded selects the same branch
afterwards.
-/

namespace PacketCodec

namespace Table

variable {α : Type}

theorem get?_append (t u : Table α) (name : String) :
    get? (t ++ u) name = (get? t name).or (get? u name) := by
  induction t with
  | nil => rfl
  | cons entry rest ih =>
    obtain ⟨key, a⟩ := entry
    simp only [List.cons_append, get?_cons, ih]
    split <;> rfl

theorem get?_of_prefix {t u : Table α} (h : t <+: u) {name : String} {a : α}
    (ha : get? t name = some a) : get? u name = some a := by
  obtain ⟨more, rfl⟩ := h
  rw [get?_append, ha, Option.some_or]

end Table

namespace Path

theorem split_of_not_mem {chars : List Char} (h : '/' ∉ chars) : split chars = [chars] := by
  induction chars with
  | nil => rfl
  | cons c rest ih =>
    obtain ⟨hc, hrest⟩ := not_or.1 (mt List.mem_cons.2 h)
    rw [split]
    · rw [ih hrest]
    · exact fun heq => hc heq.symm

theorem segments_of_not_mem {path : String} (h : '/' ∉ path.toList) :
    segments path = [path].filter counts := by
  rw [segments, split_of_not_mem h, List.map_singleton, String.ofList_toList]

end Path

namespace Scope

theorem lookup_of_not_mem {path : String} (h : '/' ∉ path.toList) (frame : Record) (outer : Scope) :
    lookup (frame :: outer) path =
      if Path.counts path = true ∧ path ≠ ".." then Table.get? frame path else none := by
  rw [lookup, Path.segments_of_not_mem h]
  by_cases hcounts : Path.counts path = true
  · rw [List.filter_cons_of_pos hcounts, List.filter_nil, resolve]
    by_cases hup : path = ".."
    · rw [if_pos hup, if_neg (by exact fun hn => hn.2 hup)]
      cases outer <;> rfl
    · rw [if_neg hup, if_pos ⟨hcounts, hup⟩]
      cases Table.get? frame path <;> rfl
  · rw [List.filter_cons_of_neg hcounts, if_neg (by exact fun hn => hcounts hn.1)]
    rfl

/-- Every record of a scope is extended at its end. -/
def Grows : Scope → Scope → Prop :=
  List.Forall₂ fun frame frame' => frame <+: frame'

theorem Grows.refl (scope : Scope) : scope.Grows scope :=
  List.forall₂_same.2 fun _ _ => List.prefix_rfl

theorem resolve_of_grows {scope full : Scope} (h : scope.Grows full) {segments : List String}
    {v : Value} (hv : resolve scope segments = some v) : resolve full segments = some v := by
  induction segments generalizing scope full with
  | nil => cases scope <;> cases hv
  | cons name rest ih =>
    cases h with
    | nil => cases hv
    | cons hframe houter =>
      simp only [resolve] at hv ⊢
      split at hv
      · rename_i hup
        rw [if_pos hup]
        exact ih houter hv
      · rename_i hdown
        rw [if_neg hdown]
        obtain ⟨field, hf, hv⟩ := Option.bind_eq_some_iff.1 hv
        exact Option.bind_eq_some_iff.2 ⟨field, Table.get?_of_prefix hframe hf, hv⟩

end Scope

namespace Discriminant

variable {scope : Scope} {v : Value}

theorem key_eq_ok {on : Discriminant} {key : String} :
    on.key scope = .ok key ↔ ∃ v, on.value scope = .ok v ∧ v.branchKey? = some key := by
  rw [Discriminant.key, Except.bind_eq_ok]
  refine exists_congr fun v => and_congr_right fun _ => ?_
  cases v.branchKey? with
  | none => exact ⟨fun h => (nomatch h), fun h => (nomatch h)⟩
  | some spelled => exact ⟨fun h => congrArg some (Except.ok.inj h), fun h => by cases h; rfl⟩

theorem value_field_eq_ok {path : String} :
    (Discriminant.field path).value scope = .ok v ↔ scope.lookup path = some v := by
  simp only [Discriminant.value]
  cases scope.lookup path with
  | none => exact ⟨fun h => (nomatch h), fun h => (nomatch h)⟩
  | some w => exact ⟨fun h => congrArg some (Except.ok.inj h), fun h => by cases h; rfl⟩

end Discriminant

theorem Discriminant.key_of_grows {on : Discriminant} {scope full : Scope} (h : scope.Grows full)
    {key : String} (hk : on.key scope = .ok key) : on.key full = .ok key := by
  obtain ⟨v, hv, hk⟩ := key_eq_ok.1 hk
  refine key_eq_ok.2 ⟨v, ?_, hk⟩
  cases on with
  | constant w => exact hv
  | field path =>
    exact value_field_eq_ok.2 (Scope.resolve_of_grows h (value_field_eq_ok.1 hv))

end PacketCodec
