import PacketCodec.Value.Json

/-!
# Values read back from JSON

A value is read back from its JSON form, kind by kind and part by part, unless a float stands in it: a float
that is not finite has no number, and the digits of one that is are read in two steps of rounding.
-/

namespace PacketCodec.Value

mutual

/-- Whether a float stands anywhere in a value. -/
def hasFloat : Value → Bool
  | .float _ => true
  | .array items => itemsHaveFloat items
  | .record fields => fieldsHaveFloat fields
  | _ => false

def itemsHaveFloat : List Value → Bool
  | [] => false
  | item :: rest => hasFloat item || itemsHaveFloat rest

def fieldsHaveFloat : List (String × Value) → Bool
  | [] => false
  | (_, value) :: rest => hasFloat value || fieldsHaveFloat rest

end

theorem jsonNat?_integer {bound n : Nat} (h : n < bound) :
    jsonNat? bound (.integer n) = some n := by
  have hn : (0 : Int) ≤ n ∧ (n : Int) < bound := by omega
  simp only [Json.integer, jsonNat?, if_pos hn, Int.toNat_natCast]

@[simp]
theorem bytesOfJson?_map (bs : Bytes) :
    bytesOfJson? (bs.map fun b => .integer b.toNat) = some bs := by
  induction bs with
  | nil => rfl
  | cons b rest ih =>
    have hb : jsonNat? 256 (.integer b.toNat) = some b.toNat := jsonNat?_integer b.toNat_lt
    simp [bytesOfJson?, hb, ih]

@[simp]
theorem ofInt?_toInt (i : Int64) : ofInt? i.toInt = some (.int i) := by
  have hi : -0x8000000000000000 ≤ i.toInt ∧ i.toInt < 0x8000000000000000 :=
    ⟨i.le_toInt, i.toInt_lt⟩
  rw [ofInt?, if_pos hi, Int64.ofInt_toInt]

@[simp]
theorem ofNat?_toNat (u : UInt64) : ofNat? u.toNat = some (.uint u) := by
  rw [ofNat?, if_pos u.toNat_lt, UInt64.ofNat_toNat]

mutual

theorem ofJson?_toJson (v : Value) (h : v.hasFloat = false) : ofJson? v.toJson = some v := by
  cases v with
  | null => rfl
  | bool b => rfl
  | int i => simp [toJson, ofJson?, leafOfJson?, Json.integer]
  | uint u => simp [toJson, ofJson?, leafOfJson?, Json.integer]
  | float x => cases h
  | string s => rfl
  | bytes bs => simp [toJson, ofJson?, leafOfJson?]
  | array items =>
    have hitems := itemsOfJson?_itemsToJson items h
    simp [toJson, ofJson?, hitems]
  | record fields =>
    have hfields := fieldsOfJson?_fieldsToJson fields h
    simp [toJson, ofJson?, recordOfJson?, hfields]

theorem itemsOfJson?_itemsToJson (items : List Value) (h : itemsHaveFloat items = false) :
    itemsOfJson? (itemsToJson items) = some items := by
  cases items with
  | nil => rfl
  | cons item rest =>
    obtain ⟨hitem, hrest⟩ := Bool.or_eq_false_iff.1 h
    simp [itemsToJson, itemsOfJson?, ofJson?_toJson item hitem, itemsOfJson?_itemsToJson rest hrest]

theorem fieldsOfJson?_fieldsToJson (fields : List (String × Value))
    (h : fieldsHaveFloat fields = false) :
    fieldsOfJson? (fieldsToJson fields) = some fields := by
  cases fields with
  | nil => rfl
  | cons field rest =>
    obtain ⟨name, value⟩ := field
    obtain ⟨hvalue, hrest⟩ := Bool.or_eq_false_iff.1 h
    simp [fieldsToJson, fieldsOfJson?, ofJson?_toJson value hvalue,
      fieldsOfJson?_fieldsToJson rest hrest]

end

end PacketCodec.Value
