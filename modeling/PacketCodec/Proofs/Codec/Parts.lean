import PacketCodec.Codec.Decode
import PacketCodec.Codec.Measure

/-!
# Parts of a codec

Induction over a codec, with one case for each way to put one together, and properties that hold of a
codec and of everything inside it. Under a key a switch acts as one of its alternatives.
-/

namespace PacketCodec.Codec

/-- Induction over what a codec is put together from. -/
@[elab_as_elim, induction_eliminator]
theorem inductionOn {motive : Codec → Prop} (c : Codec)
    (scalar : ∀ p, motive (.scalar p))
    (text : ∀ count, motive count → motive (.text count))
    (block : ∀ length, motive (.block length))
    (countedBlock : ∀ count, motive count → motive (.countedBlock count))
    (option : ∀ inner, motive inner → motive (.option inner))
    (array : ∀ element length, motive element → motive (.array element length))
    (countedArray : ∀ count element, motive count → motive element →
      motive (.countedArray count element))
    (container : ∀ fields : List (String × Codec), (∀ field ∈ fields, motive field.2) →
      motive (.container fields))
    (switch : ∀ on branches default size, (∀ branch ∈ branches, motive branch.2) →
      motive default → motive (.switch on branches default size)) : motive c := by
  refine @Codec.rec motive (fun entries => ∀ entry ∈ entries, motive entry.2)
    (fun entry => motive entry.2) scalar text block countedBlock option array countedArray
    container switch ?_ ?_ ?_ c
  · exact fun _ h => nomatch h
  · intro head rest ihHead ihRest entry h
    rcases List.mem_cons.1 h with rfl | h
    · exact ihHead
    · exact ihRest entry h
  · exact fun _ _ h => h

/-- The codecs that a codec is directly put together from. -/
def parts : Codec → List Codec
  | .scalar _ => []
  | .text count => [count]
  | .block _ => []
  | .countedBlock count => [count]
  | .option inner => [inner]
  | .array element _ => [element]
  | .countedArray count element => [count, element]
  | .container fields => fields.map Prod.snd
  | .switch _ branches default _ => default :: branches.map Prod.snd

/-- A property holds of a codec and of everything inside it. -/
inductive Everywhere (P : Codec → Prop) : Codec → Prop
  | intro {c : Codec} (self : P c) (inside : ∀ d ∈ c.parts, Everywhere P d) : Everywhere P c

namespace Everywhere

variable {P Q : Codec → Prop} {c d : Codec}

theorem self (h : Everywhere P c) : P c := by
  cases h
  assumption

theorem part (h : Everywhere P c) (hd : d ∈ c.parts) : Everywhere P d := by
  cases h with
  | intro _ inside => exact inside d hd

theorem and (hP : Everywhere P c) (hQ : Everywhere Q c) : Everywhere (fun d => P d ∧ Q d) c := by
  induction hP with
  | intro self _ ih => exact .intro ⟨self, hQ.self⟩ fun d hd => ih d hd (hQ.part hd)

theorem mono (h : Everywhere P c) (hPQ : ∀ d, P d → Q d) : Everywhere Q c := by
  induction h with
  | intro self _ ih => exact .intro (hPQ _ self) ih

theorem of_forall (h : ∀ d, P d) (c : Codec) : Everywhere P c := by
  induction c with
  | scalar p => exact .intro (h _) fun _ hd => nomatch hd
  | text count ih => exact .intro (h _) fun d hd => List.mem_singleton.1 hd ▸ ih
  | block length => exact .intro (h _) fun _ hd => nomatch hd
  | countedBlock count ih => exact .intro (h _) fun d hd => List.mem_singleton.1 hd ▸ ih
  | option inner ih => exact .intro (h _) fun d hd => List.mem_singleton.1 hd ▸ ih
  | array element length ih => exact .intro (h _) fun d hd => List.mem_singleton.1 hd ▸ ih
  | countedArray count element ihCount ihElement =>
    refine .intro (h _) fun d hd => ?_
    rcases List.mem_cons.1 hd with rfl | hd
    · exact ihCount
    · exact List.mem_singleton.1 hd ▸ ihElement
  | container fields ih =>
    refine .intro (h _) fun d hd => ?_
    obtain ⟨field, hf, rfl⟩ := List.mem_map.1 hd
    exact ih field hf
  | switch on branches default size ihBranches ihDefault =>
    refine .intro (h _) fun d hd => ?_
    rcases List.mem_cons.1 hd with rfl | hd
    · exact ihDefault
    · obtain ⟨branch, hb, rfl⟩ := List.mem_map.1 hd
      exact ihBranches branch hb

theorem field {fields : List (String × Codec)} (h : Everywhere P (.container fields))
    {field : String × Codec} (hf : field ∈ fields) : Everywhere P field.2 :=
  h.part (List.mem_map_of_mem hf)

end Everywhere

/-- What a switch comes to under a key: the first branch with that key, or else the default. -/
def alternative (branches : List (String × Codec)) (default : Codec) (key : String) : Codec :=
  (Table.get? branches key).getD default

theorem alternative_of_not_mem {branches : List (String × Codec)} {default : Codec} {key : String}
    (h : key ∉ Table.names branches) : alternative branches default key = default := by
  rw [alternative, (Table.get?_eq_none_iff branches key).2 h, Option.getD_none]

theorem alternative_mem (branches : List (String × Codec)) (default : Codec) (key : String) :
    alternative branches default key ∈ default :: branches.map Prod.snd := by
  induction branches with
  | nil => exact List.mem_cons_self
  | cons branch rest ih =>
    obtain ⟨k, c⟩ := branch
    simp only [alternative, Table.get?_cons]
    split
    · simp
    · have h := List.mem_cons.1 ih
      simp only [List.map_cons, List.mem_cons]
      exact h.imp_right Or.inr

theorem alternative_of_forall {P : Codec → Prop} {branches : List (String × Codec)}
    {default : Codec} (hb : ∀ branch ∈ branches, P branch.2) (hd : P default) (key : String) :
    P (alternative branches default key) := by
  rcases List.mem_cons.1 (alternative_mem branches default key) with h | h
  · rwa [h]
  · obtain ⟨branch, hm, he⟩ := List.mem_map.1 h
    rw [← he]
    exact hb branch hm

theorem Everywhere.alternative {P : Codec → Prop} {on : Discriminant}
    {branches : List (String × Codec)} {default : Codec} {size : Option Nat}
    (h : Everywhere P (.switch on branches default size)) (key : String) :
    Everywhere P (alternative branches default key) :=
  h.part (alternative_mem branches default key)

private theorem decodeBranch_eq (branches : List (String × Codec)) (key : String) (buf : Bytes)
    (scope : Scope) (offset : Nat) : decodeBranch branches key buf scope offset =
      (Table.get? branches key).map fun c => c.decode buf scope offset :=
  Table.eq_map_get? (fun rest => decodeBranch rest key buf scope offset) rfl (fun _ _ _ => rfl) branches

private theorem emitBranch_eq (branches : List (String × Codec)) (key : String) (scope : Scope)
    (value : Value) : emitBranch branches key scope value =
      (Table.get? branches key).map fun c => c.emit scope value :=
  Table.eq_map_get? (fun rest => emitBranch rest key scope value) rfl (fun _ _ _ => rfl) branches

private theorem measureBranch_eq (branches : List (String × Codec)) (key : String)
    (scope : Scope) (value : Value) : measureBranch branches key scope value =
      (Table.get? branches key).map fun c => c.measure scope value :=
  Table.eq_map_get? (fun rest => measureBranch rest key scope value) rfl (fun _ _ _ => rfl) branches

theorem emit_present {value : Value} (h : value ≠ .null) (inner : Codec) (scope : Scope) :
    (Codec.option inner).emit scope value = .piece [1] ++ inner.emit scope value := by
  rw [emit]
  exact h

section Switch

variable (on : Discriminant) (branches : List (String × Codec)) (default : Codec)
  (size : Option Nat) (scope : Scope)

theorem decode_switch (buf : Bytes) (offset : Nat) :
    (Codec.switch on branches default size).decode buf scope offset =
      match on.key scope with
      | .error fault => .error (.ofFault (.discriminant fault))
      | .ok key => (alternative branches default key).decode buf scope offset := by
  rw [decode]
  cases on.key scope with
  | error fault => rfl
  | ok key =>
    simp only [decodeBranch_eq, alternative]
    cases Table.get? branches key <;> rfl

theorem emit_switch (value : Value) : (Codec.switch on branches default size).emit scope value =
    .ofExcept ((on.key scope).mapError EncodeFault.discriminant) fun key =>
      (alternative branches default key).emit scope value := by
  rw [emit]
  congr 1
  funext key
  simp only [emitBranch_eq, alternative]
  cases Table.get? branches key <;> rfl

theorem measure_switch (value : Value) :
    (Codec.switch on branches default size).measure scope value = (do
      let key ← checked ((on.key scope).mapError EncodeFault.discriminant)
      let n ← (alternative branches default key).measure scope value
      return size.getD n) := by
  rw [measure]
  congr 1
  funext key
  simp only [measureBranch_eq, alternative]
  cases Table.get? branches key <;> rfl

end Switch

/-- A message: its kind, the names of its receivers and a body that depends on the kind. -/
def message : Codec :=
  .container
    [("kind", .scalar .u8),
      ("names", .countedArray (.scalar .varint) (.text (.scalar .u8))),
      ("body", .ofBranches (.field "kind") [("1", .scalar .u16)] (.option (.scalar .i16)))]

theorem message_everywhere {P : Codec → Prop} (hmessage : P message)
    (hnames : P (.countedArray (.scalar .varint) (.text (.scalar .u8))))
    (hname : P (.text (.scalar .u8)))
    (hbody : P (.ofBranches (.field "kind") [("1", .scalar .u16)] (.option (.scalar .i16))))
    (hoption : P (.option (.scalar .i16)))
    (hscalar : ∀ p : Primitive, p = .u8 ∨ p = .u16 ∨ p = .i16 ∨ p = .varint → P (.scalar p)) :
    message.Everywhere P := by
  have leaf (p : Primitive) (hp : p = .u8 ∨ p = .u16 ∨ p = .i16 ∨ p = .varint) :
      (Codec.scalar p).Everywhere P := .intro (hscalar p hp) fun _ h => nomatch h
  refine .intro hmessage fun d hd => ?_
  simp only [message, parts, ofBranches, List.map_cons, List.map_nil, List.mem_cons,
    List.not_mem_nil, or_false] at hd
  rcases hd with rfl | rfl | rfl
  · exact leaf .u8 (by simp)
  · refine .intro hnames fun d hd => ?_
    simp only [parts, List.mem_cons, List.not_mem_nil, or_false] at hd
    rcases hd with rfl | rfl
    · exact leaf .varint (by simp)
    · exact .intro hname fun d hd => List.mem_singleton.1 hd ▸ leaf .u8 (by simp)
  · refine .intro hbody fun d hd => ?_
    simp only [parts, List.map_cons, List.map_nil, List.mem_cons, List.not_mem_nil, or_false] at hd
    rcases hd with rfl | rfl
    · exact .intro hoption fun d hd => List.mem_singleton.1 hd ▸ leaf .i16 (by simp)
    · exact leaf .u16 (by simp)

end PacketCodec.Codec
