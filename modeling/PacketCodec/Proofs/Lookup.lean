import PacketCodec.Proofs.Scope
import PacketCodec.Proofs.Table

/-!
# What paths lead to

A path says how many records to step out of, and which names to follow from there. Segments that mean nothing may
stand anywhere in it. It leads to a value through the first entry of each name, and to none exactly where there is
no such record, where a name is missing, where something that is no record has to be looked into, and where it names
nothing. What it leads to stays as the records of the scope grow.
-/

namespace PacketCodec

theorem Table.foldl_push {α : Type} (t : Table α) (entries : List (String × α)) :
    entries.foldl (fun t entry => t.push entry.1 entry.2) t = t ++ entries := by
  induction entries generalizing t with
  | nil => exact (List.append_nil t).symm
  | cons entry rest ih =>
    rw [List.foldl_cons, ih, push, List.append_assoc]
    rfl

namespace Path

/-- A segment that means nothing. -/
def Blank (segment : String) : Prop :=
  segment = "" ∨ segment = "."

instance (segment : String) : Decidable (Blank segment) :=
  inferInstanceAs (Decidable (_ ∨ _))

/-- Segments of a path have no slash in them. -/
def AreSegments (parts : List String) : Prop :=
  ∀ part ∈ parts, '/' ∉ part.toList

/-- A path that steps out of so many records and then follows names: its segments say so, without the blank ones. -/
def Spells (path : String) (ups : Nat) (names : List String) : Prop :=
  ∃ parts, AreSegments parts ∧ path = "/".intercalate parts ∧
    parts.filter (fun part => ¬ Blank part) = List.replicate ups ".." ++ names ∧ names.head? ≠ some ".."

theorem split_eq_splitOn (chars : List Char) : split chars = chars.splitOn '/' := by
  induction chars with
  | nil => rfl
  | cons c rest ih =>
    rw [List.splitOn, List.splitOnP_cons_eq_if_modifyHead, ← List.splitOn, ← ih]
    by_cases hc : c = '/'
    · subst hc
      rfl
    · rw [split]
      · simp only [beq_iff_eq, if_neg hc]
        cases hs : split rest with
        | nil => exact absurd (ih ▸ hs) (List.splitOn_ne_nil '/' rest)
        | cons part parts => rfl
      · exact hc

theorem not_mem_of_mem_split {chars part : List Char} (h : part ∈ split chars) : '/' ∉ part := by
  induction chars generalizing part with
  | nil =>
    obtain rfl := List.mem_singleton.1 h
    exact List.not_mem_nil
  | cons c rest ih =>
    by_cases hc : c = '/'
    · subst hc
      rcases List.mem_cons.1 h with rfl | h
      · exact List.not_mem_nil
      · exact ih h
    · rw [split] at h
      · cases hs : split rest with
        | nil =>
          rw [hs] at h
          obtain rfl := List.mem_singleton.1 h
          simpa using Ne.symm hc
        | cons front parts =>
          rw [hs] at h ih
          rcases List.mem_cons.1 h with rfl | h
          · have hfront := ih List.mem_cons_self
            simp [hfront, Ne.symm hc]
          · exact ih (List.mem_cons_of_mem _ h)
      · exact hc

theorem counts_eq (segment : String) : counts segment = decide (¬ Blank segment) := by
  rw [Bool.eq_iff_iff]
  simp [counts, Blank]

/-- A path is looked up by its segments that are not blank. -/
theorem segments_intercalate {parts : List String} (h : AreSegments parts) :
    segments ("/".intercalate parts) = parts.filter (fun part => ¬ Blank part) := by
  have hcounts : counts = fun part => decide (¬ Blank part) := funext counts_eq
  cases parts with
  | nil => decide
  | cons part parts =>
    have hsplit : split ("/".intercalate (part :: parts)).toList = (part :: parts).map String.toList := by
      rw [split_eq_splitOn, String.toList_intercalate]
      apply List.splitOn_intercalate
      · intro chars hchars
        obtain ⟨segment, hs, rfl⟩ := List.mem_map.1 hchars
        exact h segment hs
      · simp
    rw [segments, hsplit, List.map_map, hcounts]
    simp

theorem exists_segments (path : String) : ∃ parts, AreSegments parts ∧ path = "/".intercalate parts := by
  refine ⟨(split path.toList).map String.ofList, ?_, ?_⟩
  · intro part hp
    obtain ⟨chars, hchars, rfl⟩ := List.mem_map.1 hp
    rw [String.toList_ofList]
    exact not_mem_of_mem_split hchars
  · apply String.toList_inj.1
    rw [String.toList_intercalate, List.map_map]
    have hid : String.toList ∘ String.ofList = id := funext fun chars => String.toList_ofList
    have hslash : "/".toList = ['/'] := rfl
    rw [hid, List.map_id, split_eq_splitOn, hslash, List.intercalate_splitOn]

theorem exists_ups (parts : List String) : ∃ ups names,
    parts = List.replicate ups ".." ++ names ∧ names.head? ≠ some ".." := by
  induction parts with
  | nil => exact ⟨0, [], rfl, by simp⟩
  | cons part rest ih =>
    by_cases hup : part = ".."
    · obtain ⟨ups, names, rfl, hnames⟩ := ih
      exact ⟨ups + 1, names, by rw [hup, List.replicate_succ, List.cons_append], hnames⟩
    · exact ⟨0, part :: rest, rfl, by simpa using hup⟩

theorem exists_spells (path : String) : ∃ ups names, Spells path ups names := by
  obtain ⟨parts, hparts, hpath⟩ := exists_segments path
  obtain ⟨ups, names, hsplit, hnames⟩ := exists_ups (parts.filter fun part => ¬ Blank part)
  exact ⟨ups, names, parts, hparts, hpath, hsplit, hnames⟩

theorem Spells.segments_eq {path : String} {ups : Nat} {names : List String} (h : Spells path ups names) :
    segments path = List.replicate ups ".." ++ names ∧ names.head? ≠ some ".." := by
  obtain ⟨parts, hparts, rfl, hsplit, hnames⟩ := h
  rw [segments_intercalate hparts]
  exact ⟨hsplit, hnames⟩

end Path

namespace Scope

variable {scope full : Scope} {v w : Value} {names : List String} {name : String} {ups : Nat}

/-- Names lead from a value through nested records, each to the first entry under it. -/
inductive Reaches : Value → List String → Value → Prop
  | here (v : Value) : Reaches v [] v
  | field {fields : Record} {name : String} {v w : Value} {names : List String}
    (h : Table.FirstEntry fields name v) (hrest : Reaches v names w) :
    Reaches (.record fields) (name :: names) w

/-- Names lead nowhere from a value: one is missing in a record, or what is to be looked into is no record. -/
inductive Blocked : Value → List String → Prop
  | missing {fields : Record} {name : String} {names : List String} (h : name ∉ Table.names fields) :
    Blocked (.record fields) (name :: names)
  | noRecord {v : Value} {name : String} {names : List String} (h : v.kind ≠ .record) : Blocked v (name :: names)
  | field {fields : Record} {name : String} {v : Value} {names : List String}
    (h : Table.FirstEntry fields name v) (hrest : Blocked v names) : Blocked (.record fields) (name :: names)

theorem descend_record (fields : Record) (name : String) (names : List String) :
    descend (.record fields) (name :: names) = (Table.get? fields name).bind fun v => descend v names := rfl

theorem descend_of_reaches (h : Reaches v names w) : descend v names = some w := by
  induction h with
  | here v => cases v <;> rfl
  | field h hrest ih =>
    rw [descend_record, Table.get?_eq_some_iff.2 h]
    exact ih

theorem descend_of_blocked (h : Blocked v names) : descend v names = none := by
  induction h with
  | missing h =>
    rw [descend_record, (Table.get?_eq_none_iff _ _).2 h, Option.bind_none]
  | @noRecord v name names h =>
    cases v with
    | record fields => exact absurd rfl h
    | _ => rfl
  | field h hrest ih =>
    rw [descend_record, Table.get?_eq_some_iff.2 h]
    exact ih

theorem reaches_or_blocked (v : Value) (names : List String) : (∃ w, Reaches v names w) ∨ Blocked v names := by
  induction names generalizing v with
  | nil => exact .inl ⟨v, .here v⟩
  | cons name names ih =>
    cases v with
    | record fields =>
      cases hget : Table.get? fields name with
      | none => exact .inr (.missing ((Table.get?_eq_none_iff _ _).1 hget))
      | some field =>
        have hfirst := Table.get?_eq_some_iff.1 hget
        rcases ih field with ⟨w, hreach⟩ | hblocked
        · exact .inl ⟨w, .field hfirst hreach⟩
        · exact .inr (.field hfirst hblocked)
    | _ => exact .inr (.noRecord (by simp [Value.kind]))

theorem descend_eq_some_iff : descend v names = some w ↔ Reaches v names w := by
  refine ⟨fun h => ?_, descend_of_reaches⟩
  rcases reaches_or_blocked v names with ⟨w', hreach⟩ | hblocked
  · rw [descend_of_reaches hreach] at h
    exact Option.some.inj h ▸ hreach
  · rw [descend_of_blocked hblocked] at h
    cases h

theorem descend_eq_none_iff : descend v names = none ↔ Blocked v names := by
  refine ⟨fun h => ?_, descend_of_blocked⟩
  rcases reaches_or_blocked v names with ⟨w, hreach⟩ | hblocked
  · rw [descend_of_reaches hreach] at h
    cases h
  · exact hblocked

theorem resolve_ups (scope : Scope) (ups : Nat) : resolve scope (List.replicate ups "..") = none := by
  induction ups generalizing scope with
  | zero => cases scope <;> rfl
  | succ ups ih =>
    cases scope with
    | nil => rfl
    | cons frame outer => exact ih outer

/-- Stepping out of records comes first, and then names are followed from the record reached. -/
theorem resolve_ups_append (hname : name ≠ "..") (scope : Scope) (ups : Nat) :
    resolve scope (List.replicate ups ".." ++ name :: names) =
      scope[ups]?.bind fun frame => descend (.record frame) (name :: names) := by
  induction ups generalizing scope with
  | zero =>
    cases scope with
    | nil => rfl
    | cons frame outer => exact if_neg hname
  | succ ups ih =>
    cases scope with
    | nil => rfl
    | cons frame outer => exact ih outer

theorem lookup_of_spells {path : String} (h : Path.Spells path ups names) (scope : Scope) :
    lookup scope path =
      if names = [] then none else scope[ups]?.bind fun frame => descend (.record frame) names := by
  obtain ⟨hsegments, hnames⟩ := h.segments_eq
  rw [lookup, hsegments]
  cases names with
  | nil => rw [if_pos rfl, List.append_nil, resolve_ups]
  | cons name names =>
    have hname : name ≠ ".." := by simpa using hnames
    rw [if_neg (List.cons_ne_nil name names), resolve_ups_append hname]

theorem lookup_insert_blank {before after : List String} {blank : String}
    (h : Path.AreSegments (before ++ after)) (hblank : Path.Blank blank) (scope : Scope) :
    lookup scope ("/".intercalate (before ++ blank :: after)) =
      lookup scope ("/".intercalate (before ++ after)) := by
  have hslash : '/' ∉ blank.toList := by
    rcases hblank with rfl | rfl <;> decide
  have hsegments : Path.AreSegments (before ++ blank :: after) := by
    intro part hp
    rcases List.mem_append.1 hp with hp | hp
    · exact h part (List.mem_append_left _ hp)
    · rcases List.mem_cons.1 hp with rfl | hp
      · exact hslash
      · exact h part (List.mem_append_right _ hp)
  rw [lookup, lookup, Path.segments_intercalate hsegments, Path.segments_intercalate h]
  simp [hblank]

/-- Looking up a path does what its segments say. Each path steps out of some records and then follows names. Blank
segments put in or left out anywhere change nothing. The value found is the one that the names lead to, each to the
first entry under it, from the record stepped out to; and nothing is found exactly where there are no names, there is
no such record, a name is missing, or a value on the way is no record. -/
theorem lookup_by_grammar (scope : Scope) :
    (∀ path, ∃ ups names, Path.Spells path ups names) ∧
    (∀ before blank after, Path.AreSegments (before ++ after) → Path.Blank blank →
      lookup scope ("/".intercalate (before ++ blank :: after)) =
        lookup scope ("/".intercalate (before ++ after))) ∧
    ∀ path ups names, Path.Spells path ups names →
      (∀ v, lookup scope path = some v ↔ ∃ frame name rest w, scope[ups]? = some frame ∧
        names = name :: rest ∧ Table.FirstEntry frame name w ∧ Reaches w rest v) ∧
      (lookup scope path = none ↔
        names = [] ∨ scope[ups]? = none ∨ ∃ frame, scope[ups]? = some frame ∧ Blocked (.record frame) names) := by
  refine ⟨Path.exists_spells, fun before blank after h hb => lookup_insert_blank h hb scope, ?_⟩
  intro path ups names h
  rw [lookup_of_spells h]
  cases names with
  | nil => simp
  | cons name names =>
    rw [if_neg (List.cons_ne_nil name names)]
    cases hframe : scope[ups]? with
    | none => simp
    | some frame =>
      rw [Option.bind_some]
      constructor
      · intro v
        rw [descend_eq_some_iff]
        constructor
        · rintro (_ | ⟨hfirst, hrest⟩)
          exact ⟨frame, name, names, _, rfl, rfl, hfirst, hrest⟩
        · rintro ⟨frame', name', rest, w, hsame, hnames, hfirst, hrest⟩
          obtain rfl := Option.some.inj hsame
          obtain ⟨rfl, rfl⟩ := List.cons.inj hnames
          exact .field hfirst hrest
      · rw [descend_eq_none_iff]
        simp

/-- The scope of a container inside another one, which has another record in it. -/
def nested : Scope :=
  [[("len", .uint 4)], [("header", .record [("kind", .uint 2)]), ("version", .uint 1)]]

theorem nested_lookup_by_grammar :
    Path.Spells "/.././header//kind" 1 ["header", "kind"] ∧
      lookup nested "/.././header//kind" = some (.uint 2) ∧
      lookup nested "/.././header//kind" = lookup nested ".././header//kind" ∧
      lookup nested "../version/kind" = none := by
  obtain ⟨_, hblank, hspelled⟩ := lookup_by_grammar nested
  have hheader : Path.Spells "/.././header//kind" 1 ["header", "kind"] :=
    ⟨["", "..", ".", "header", "", "kind"], by simp [Path.AreSegments], by decide, by decide, by decide⟩
  have hversion : Path.Spells "../version/kind" 1 ["version", "kind"] :=
    ⟨["..", "version", "kind"], by simp [Path.AreSegments], by decide, by decide, by decide⟩
  refine ⟨hheader, ?_, ?_, ?_⟩
  · refine ((hspelled _ _ _ hheader).1 _).2
      ⟨_, "header", ["kind"], .record [("kind", .uint 2)], rfl, rfl, ⟨[], _, rfl, List.not_mem_nil⟩, ?_⟩
    exact .field ⟨[], [], rfl, List.not_mem_nil⟩ (.here _)
  · exact hblank [] "" ["..", ".", "header", "", "kind"] (by simp [Path.AreSegments]) (.inl rfl)
  · refine (hspelled _ _ _ hversion).2.2 (.inr (.inr ⟨_, rfl, ?_⟩))
    exact .field ⟨[_], [], rfl, by decide⟩ (.noRecord (by decide))

/-- The records of a scope after more entries have been pushed to them, whatever names these have. -/
def Pushed (scope full : Scope) : Prop :=
  scope.length = full.length ∧
    ∀ (i : Nat) (frame frame' : Record), scope[i]? = some frame → full[i]? = some frame' →
      ∃ entries : Table Value, frame' = entries.foldl (fun r entry => r.push entry.1 entry.2) frame

theorem Pushed.grows (h : scope.Pushed full) : scope.Grows full := by
  refine List.forall₂_iff_get.2 ⟨h.1, fun i hi hi' => ?_⟩
  obtain ⟨entries, hentries⟩ := h.2 i _ _ (List.getElem?_eq_getElem hi) (List.getElem?_eq_getElem hi')
  rw [Table.foldl_push] at hentries
  exact ⟨entries, hentries.symm⟩

/-- What a path finds in a scope it finds when entries have been pushed to the records. So a discriminant that was
found while records were read selects by the same key when they are complete. -/
theorem lookup_of_pushed (h : scope.Pushed full) {path : String} (hv : lookup scope path = some v) :
    lookup full path = some v ∧ (Discriminant.field path).key full = (Discriminant.field path).key scope := by
  have hfull : lookup full path = some v := resolve_of_grows h.grows hv
  refine ⟨hfull, ?_⟩
  simp only [Discriminant.key, Discriminant.value, hv, hfull]

theorem nested_lookup_of_pushed :
    let full : Scope := [[("len", .uint 4), ("body", .null)],
      [("header", .record [("kind", .uint 2)]), ("version", .uint 1), ("len", .uint 7), ("header", .null)]]
    nested.Pushed full ∧ lookup nested "../header/kind" = some (.uint 2) ∧
      lookup full "../header/kind" = some (.uint 2) := by
  intro full
  have hpushed : nested.Pushed full := by
    refine ⟨rfl, fun i frame frame' hframe hframe' => ?_⟩
    match i with
    | 0 =>
      cases hframe
      cases hframe'
      exact ⟨[("body", .null)], rfl⟩
    | 1 =>
      cases hframe
      cases hframe'
      exact ⟨[("len", .uint 7), ("header", .null)], rfl⟩
    | i + 2 => cases hframe
  have hfound : lookup nested "../header/kind" = some (.uint 2) := by rfl
  exact ⟨hpushed, hfound, (lookup_of_pushed hpushed hfound).1⟩

end Scope

end PacketCodec
