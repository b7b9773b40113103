import PacketCodec.Proofs.Codec.Parts

/-!
# Positions in a value

Where encoding leads from a codec and a value to a part of the codec and a part of the value, and what
holds at every place that it leads to. The alternative of a switch depends on the scope, so scopes are
followed as well. A count is not part of the value that it announces and has no position in it.
-/

namespace PacketCodec.Codec

/-- Encoding a value in a scope goes on with a part of the codec, in some scope, and a part of the
value. -/
inductive GoesOn : Codec → Scope → Value → Codec → Scope → Value → Prop
  | present {inner : Codec} {scope : Scope} {value : Value} (h : value ≠ .null) :
      GoesOn (.option inner) scope value inner scope value
  | item {element : Codec} {length : Nat} {scope : Scope} {items : List Value} {item : Value}
      (h : item ∈ items) : GoesOn (.array element length) scope (.array items) element scope item
  | countedItem {count element : Codec} {scope : Scope} {items : List Value} {item : Value}
      (h : item ∈ items) :
      GoesOn (.countedArray count element) scope (.array items) element scope item
  | field {fields : List (String × Codec)} {scope : Scope} {record : Record}
      {field : String × Codec} (h : field ∈ fields) :
      GoesOn (.container fields) scope (.record record) field.2 (record :: scope)
        (fieldValue record field.1)
  | alternative {on : Discriminant} {branches : List (String × Codec)} {default : Codec}
      {size : Option Nat} {scope : Scope} {value : Value} {key : String}
      (h : on.key scope = .ok key) :
      GoesOn (.switch on branches default size) scope value (alternative branches default key) scope
        value

/-- A property holds at every position of a value that is encoded in a scope. -/
inductive Throughout (P : Codec → Value → Prop) : Codec → Scope → Value → Prop
  | intro {c : Codec} {scope : Scope} {value : Value} (self : P c value)
      (inside : ∀ d scope' part, GoesOn c scope value d scope' part → Throughout P d scope' part) :
      Throughout P c scope value

namespace Throughout

variable {P : Codec → Value → Prop} {c d : Codec} {scope scope' : Scope} {value part : Value}

theorem self (h : Throughout P c scope value) : P c value := by
  cases h
  assumption

theorem next (h : Throughout P c scope value) (hn : GoesOn c scope value d scope' part) :
    Throughout P d scope' part := by
  cases h with
  | intro _ inside => exact inside d scope' part hn

theorem scalar {p : Primitive} (h : P (.scalar p) value) : Throughout P (.scalar p) scope value :=
  .intro h fun _ _ _ hn => nomatch hn

theorem text {count : Codec} (h : P (.text count) value) : Throughout P (.text count) scope value :=
  .intro h fun _ _ _ hn => nomatch hn

theorem countedArray {count element : Codec} {items : List Value}
    (h : P (.countedArray count element) (.array items))
    (hitems : ∀ item ∈ items, Throughout P element scope item) :
    Throughout P (.countedArray count element) scope (.array items) := by
  refine .intro h fun d scope' part hn => ?_
  cases hn with
  | countedItem hm => exact hitems part hm

theorem container {fields : List (String × Codec)} {record : Record}
    (h : P (.container fields) (.record record))
    (hfields : ∀ field ∈ fields,
      Throughout P field.2 (record :: scope) (fieldValue record field.1)) :
    Throughout P (.container fields) scope (.record record) := by
  refine .intro h fun d scope' part hn => ?_
  cases hn with
  | field hm => exact hfields _ hm

theorem switch {on : Discriminant} {branches : List (String × Codec)} {default : Codec}
    {size : Option Nat} {key : String} (h : P (.switch on branches default size) value)
    (hk : on.key scope = .ok key)
    (hbranch : Throughout P (alternative branches default key) scope value) :
    Throughout P (.switch on branches default size) scope value := by
  refine .intro h fun d scope' part hn => ?_
  cases hn with
  | alternative hk' =>
    cases hk.symm.trans hk'
    exact hbranch

end Throughout

end PacketCodec.Codec
