import PacketCodec.Codec.Basic
import PacketCodec.Proofs.Value.Json

/-!
# Normal forms of values

Equality does not tell the two signednesses of an integer apart. In the normal form of a value every integer is
unsigned unless its number is negative, so values without floats are equal exactly if they have the same
normal form. Whatever is asked of a value, its normal form gives the same answer.
-/

namespace PacketCodec

namespace Value

/-- The integer of a number, unsigned unless the number is negative. -/
def ofNumber (n : Int) : Value :=
  if 0 ≤ n then .uint (UInt64.ofNat n.toNat) else .int (Int64.ofInt n)

mutual

/-- The value with its integers given by their numbers. -/
def normal : Value → Value
  | .null => .null
  | .bool b => .bool b
  | .int i => ofNumber i.toInt
  | .uint u => ofNumber u.toNat
  | .float x => .float x
  | .string s => .string s
  | .bytes bs => .bytes bs
  | .array items => .array (normalItems items)
  | .record fields => .record (normalFields fields)

def normalItems : List Value → List Value
  | [] => []
  | item :: rest => item.normal :: normalItems rest

def normalFields : List (String × Value) → List (String × Value)
  | [] => []
  | (name, value) :: rest => (name, value.normal) :: normalFields rest

end

@[simp]
theorem length_normalItems (items : List Value) : (normalItems items).length = items.length := by
  induction items with
  | nil => rfl
  | cons item rest ih => rw [normalItems, List.length_cons, ih, List.length_cons]

/-- The value is an integer of that number. -/
inductive HasNumber : Value → Int → Prop
  | int (i : Int64) : HasNumber (.int i) i.toInt
  | uint (u : UInt64) : HasNumber (.uint u) u.toNat

namespace HasNumber

variable {v w : Value} {n m : Int}

theorem ofNumber_of_bounds (hlow : -0x8000000000000000 ≤ n) (hhigh : n < UInt64.size) :
    (ofNumber n).HasNumber n := by
  by_cases hn : 0 ≤ n
  · have hnat : ((UInt64.ofNat n.toNat).toNat : Int) = n := by
      rw [UInt64.toNat_ofNat_of_lt' (by omega)]
      omega
    have huint := HasNumber.uint (UInt64.ofNat n.toNat)
    rw [hnat] at huint
    rwa [ofNumber, if_pos hn]
  · have hint := HasNumber.int (Int64.ofInt n)
    rw [Int64.toInt_ofInt_of_le hlow (by omega)] at hint
    rwa [ofNumber, if_neg hn]

protected theorem normal (h : v.HasNumber n) : v.normal.HasNumber n := by
  cases h with
  | int i =>
    have hlow := i.le_toInt
    have hhigh := i.toInt_lt
    rw [Value.normal]
    exact ofNumber_of_bounds hlow (by change _ < (0x10000000000000000 : Int); omega)
  | uint u =>
    have hhigh := u.toNat_lt
    rw [Value.normal]
    exact ofNumber_of_bounds (by omega) (by change _ < (0x10000000000000000 : Int); omega)

theorem normal_eq (h : v.HasNumber n) : v.normal = ofNumber n := by
  cases h <;> rw [Value.normal]

theorem unique (h : v.HasNumber n) (h' : v.HasNumber m) : n = m := by
  cases h <;> cases h' <;> rfl

theorem asNat?_eq (h : v.HasNumber n) : v.asNat? = if 0 ≤ n then some n.toNat else none := by
  cases h with
  | int i => rfl
  | uint u => rw [asNat?, if_pos (Int.natCast_nonneg _), Int.toNat_natCast]

theorem asInt?_eq (h : v.HasNumber n) :
    v.asInt? = if n < 0x8000000000000000 then some n else none := by
  cases h with
  | int i =>
    have hlt : i.toInt < 0x8000000000000000 := i.toInt_lt
    rw [asInt?, if_pos hlt]
  | uint u =>
    rw [asInt?]
    split
    · rw [if_pos (by omega)]
    · rw [if_neg (by omega)]

theorem asDouble?_eq (h : v.HasNumber n) : v.asDouble? = some (Double.ofInt n) := by
  cases h <;> rfl

theorem branchKey?_eq (h : v.HasNumber n) : v.branchKey? = some (toString n) := by
  cases h <;> rfl

theorem render_eq (h : v.HasNumber n) : v.render = toString n := by
  cases h with
  | int i => rw [render]
  | uint u =>
    rw [render]
    rfl

theorem kind_eq (h : v.HasNumber n) : v.kind = .integer := by
  cases h <;> rfl

theorem asArray?_eq (h : v.HasNumber n) : v.asArray? = none := by
  cases h <;> rfl

theorem asRecord?_eq (h : v.HasNumber n) : v.asRecord? = none := by
  cases h <;> rfl

theorem beq_iff (hv : v.HasNumber n) (hw : w.HasNumber m) : (v == w) = true ↔ n = m := by
  cases hv with
  | int i =>
    cases hw with
    | int j =>
      change (i == j) = true ↔ _
      rw [beq_iff_eq, Int64.toInt_inj]
    | uint u =>
      change (i.toInt == (u.toNat : Int)) = true ↔ _
      rw [beq_iff_eq]
  | uint u =>
    cases hw with
    | int j =>
      change (j.toInt == (u.toNat : Int)) = true ↔ _
      rw [beq_iff_eq, eq_comm]
    | uint t =>
      change (u == t) = true ↔ _
      rw [beq_iff_eq, Int.ofNat_inj, UInt64.toNat_inj]

end HasNumber

section Views

/-- Whatever says the same of integers of the same number, and of lists and records of the same form, says the
same of a value and its normal form. -/
theorem view_normal {α : Type} {view : Value → α} {f : Int → α}
    (hnumber : ∀ w n, w.HasNumber n → view w = f n)
    (harray : ∀ items, view (.array (normalItems items)) = view (.array items))
    (hrecord : ∀ fields, view (.record (normalFields fields)) = view (.record fields)) (v : Value) :
    view v.normal = view v := by
  have number {w : Value} {n : Int} (hw : w.HasNumber n) : view w.normal = view w :=
    (hnumber _ _ hw.normal).trans (hnumber _ _ hw).symm
  cases v with
  | int i => exact number (.int i)
  | uint u => exact number (.uint u)
  | array items =>
    rw [normal]
    exact harray items
  | record fields =>
    rw [normal]
    exact hrecord fields
  | _ => rw [normal]

variable (v : Value)

@[simp]
theorem kind_normal : v.normal.kind = v.kind :=
  view_normal (fun _ _ => HasNumber.kind_eq) (fun _ => rfl) (fun _ => rfl) v

@[simp]
theorem asNat?_normal : v.normal.asNat? = v.asNat? :=
  view_normal (fun _ _ => HasNumber.asNat?_eq) (fun _ => rfl) (fun _ => rfl) v

@[simp]
theorem asInt?_normal : v.normal.asInt? = v.asInt? :=
  view_normal (fun _ _ => HasNumber.asInt?_eq) (fun _ => rfl) (fun _ => rfl) v

@[simp]
theorem asDouble?_normal : v.normal.asDouble? = v.asDouble? :=
  view_normal (fun _ _ => HasNumber.asDouble?_eq) (fun _ => rfl) (fun _ => rfl) v

@[simp]
theorem branchKey?_normal : v.normal.branchKey? = v.branchKey? :=
  view_normal (fun _ _ => HasNumber.branchKey?_eq) (fun _ => rfl) (fun _ => rfl) v

@[simp]
theorem asBool?_normal : v.normal.asBool? = v.asBool? :=
  view_normal (f := fun _ => none) (fun _ _ h => by cases h <;> rfl) (fun _ => rfl) (fun _ => rfl) v

@[simp]
theorem asString?_normal : v.normal.asString? = v.asString? :=
  view_normal (f := fun _ => none) (fun _ _ h => by cases h <;> rfl) (fun _ => rfl) (fun _ => rfl) v

@[simp]
theorem asBytes?_normal : v.normal.asBytes? = v.asBytes? :=
  view_normal (f := fun _ => none) (fun _ _ h => by cases h <;> rfl) (fun _ => rfl) (fun _ => rfl) v

@[simp]
theorem asArray?_normal : v.normal.asArray? = v.asArray?.map normalItems := by
  cases v with
  | int i => exact (HasNumber.int i).normal.asArray?_eq
  | uint u => exact (HasNumber.uint u).normal.asArray?_eq
  | _ =>
    rw [normal]
    rfl

@[simp]
theorem asRecord?_normal : v.normal.asRecord? = v.asRecord?.map normalFields := by
  cases v with
  | int i => exact (HasNumber.int i).normal.asRecord?_eq
  | uint u => exact (HasNumber.uint u).normal.asRecord?_eq
  | _ =>
    rw [normal]
    rfl

end Views

theorem normal_eq_null {v : Value} : v.normal = .null ↔ v = .null := by
  constructor
  · intro h
    have hkind := kind_normal v
    rw [h] at hkind
    cases v with
    | null => rfl
    | _ => cases hkind
  · rintro rfl
    rfl

theorem normal_uint (u : UInt64) : (Value.uint u).normal = .uint u := by
  rw [normal, ofNumber, if_pos (Int.natCast_nonneg _), Int.toNat_natCast, UInt64.ofNat_toNat]

mutual

@[simp]
theorem render_normal (v : Value) : v.normal.render = v.render := by
  cases v with
  | int i => rw [(HasNumber.int i).normal.render_eq, (HasNumber.int i).render_eq]
  | uint u => rw [(HasNumber.uint u).normal.render_eq, (HasNumber.uint u).render_eq]
  | array items => rw [normal, render, render, renderItems_normalItems items]
  | record fields => rw [normal, render, render, renderFields_normalFields fields]
  | _ => rw [normal]

theorem renderItems_normalItems (items : List Value) :
    renderItems (normalItems items) = renderItems items := by
  cases items with
  | nil => rfl
  | cons item rest =>
    rw [normalItems, renderItems, renderItems, render_normal item, renderItems_normalItems rest]

theorem renderFields_normalFields (fields : List (String × Value)) :
    renderFields (normalFields fields) = renderFields fields := by
  cases fields with
  | nil => rfl
  | cons field rest =>
    obtain ⟨name, value⟩ := field
    rw [normalFields, renderFields, renderFields, render_normal value,
      renderFields_normalFields rest]

end

section Equality

theorem kind_eq_of_beq {v w : Value} (h : (v == w) = true) : v.kind = w.kind := by
  cases v <;> cases w <;> first | rfl | cases h

theorem kind_eq_of_normal_eq {v w : Value} (h : v.normal = w.normal) : v.kind = w.kind := by
  rw [← kind_normal v, ← kind_normal w, h]

theorem HasNumber.beq_iff_normal_eq {v w : Value} {n m : Int} (hv : v.HasNumber n)
    (hw : w.HasNumber m) : (v == w) = true ↔ v.normal = w.normal := by
  rw [hv.beq_iff hw]
  constructor
  · rintro rfl
    rw [hv.normal_eq, hw.normal_eq]
  · intro h
    have hsame := hv.normal
    rw [h] at hsame
    exact hsame.unique hw.normal

mutual

/-- Values without floats are equal exactly if they have the same normal form. -/
theorem beq_iff_normal_eq (v w : Value) (hv : v.hasFloat = false) (hw : w.hasFloat = false) :
    (v == w) = true ↔ v.normal = w.normal := by
  by_cases hk : v.kind = w.kind
  · cases v with
    | int i =>
      cases w with
      | int j => exact (HasNumber.int i).beq_iff_normal_eq (.int j)
      | uint u => exact (HasNumber.int i).beq_iff_normal_eq (.uint u)
      | _ => cases hk
    | uint t =>
      cases w with
      | int j => exact (HasNumber.uint t).beq_iff_normal_eq (.int j)
      | uint u => exact (HasNumber.uint t).beq_iff_normal_eq (.uint u)
      | _ => cases hk
    | float x => cases hv
    | array items =>
      cases w with
      | array items' =>
        rw [normal, normal, array.injEq]
        exact beqItems_iff_normalItems_eq items items' hv hw
      | _ => cases hk
    | record fields =>
      cases w with
      | record fields' =>
        rw [normal, normal, record.injEq]
        exact beqFields_iff_normalFields_eq fields fields' hv hw
      | _ => cases hk
    | null =>
      cases w with
      | null => exact iff_of_true rfl rfl
      | _ => cases hk
    | bool a =>
      cases w with
      | bool b =>
        change (a == b) = true ↔ _
        rw [normal, normal, bool.injEq, beq_iff_eq]
      | _ => cases hk
    | string s =>
      cases w with
      | string t =>
        change (s == t) = true ↔ _
        rw [normal, normal, string.injEq, beq_iff_eq]
      | _ => cases hk
    | bytes as =>
      cases w with
      | bytes bs =>
        change (as == bs) = true ↔ _
        rw [normal, normal, bytes.injEq, beq_iff_eq]
      | _ => cases hk
  · exact iff_of_false (mt kind_eq_of_beq hk) (mt kind_eq_of_normal_eq hk)

theorem beqItems_iff_normalItems_eq (items items' : List Value) (h : itemsHaveFloat items = false)
    (h' : itemsHaveFloat items' = false) :
    beqItems items items' = true ↔ normalItems items = normalItems items' := by
  cases items with
  | nil => cases items' <;> simp [beqItems, normalItems]
  | cons item rest =>
    cases items' with
    | nil => simp [beqItems, normalItems]
    | cons item' rest' =>
      rw [itemsHaveFloat, Bool.or_eq_false_iff] at h h'
      rw [beqItems, Bool.and_eq_true, normalItems, normalItems, List.cons.injEq]
      exact and_congr (beq_iff_normal_eq item item' h.1 h'.1)
        (beqItems_iff_normalItems_eq rest rest' h.2 h'.2)

theorem beqFields_iff_normalFields_eq (fields fields' : List (String × Value))
    (h : fieldsHaveFloat fields = false) (h' : fieldsHaveFloat fields' = false) :
    beqFields fields fields' = true ↔ normalFields fields = normalFields fields' := by
  cases fields with
  | nil => cases fields' <;> simp [beqFields, normalFields]
  | cons field rest =>
    obtain ⟨name, value⟩ := field
    cases fields' with
    | nil => simp [beqFields, normalFields]
    | cons field' rest' =>
      obtain ⟨name', value'⟩ := field'
      rw [fieldsHaveFloat, Bool.or_eq_false_iff] at h h'
      rw [beqFields, Bool.and_eq_true, Bool.and_eq_true, beq_iff_eq, normalFields, normalFields,
        List.cons.injEq, Prod.mk.injEq]
      exact and_congr (and_congr Iff.rfl (beq_iff_normal_eq value value' h.1 h'.1))
        (beqFields_iff_normalFields_eq rest rest' h.2 h'.2)

end

end Equality

end Value

end PacketCodec
