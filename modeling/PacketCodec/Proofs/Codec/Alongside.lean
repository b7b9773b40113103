import PacketCodec.Proofs.Codec.Parts
import PacketCodec.Proofs.Codec.Scalar

/-!
# Decoding two buffers side by side

A relation between the outcomes of taking bytes from two buffers is one between what they are decoded to,
if it goes through steps that are taken one after the other. Decoding looks at a buffer in one more way: a
counted array compares the number of its items with how many bytes there are.
-/

namespace PacketCodec

section

variable (R : ∀ {α : Type}, Except ReadError α → Except ReadError α → Prop) (buf buf' : Bytes)
  (place : Nat → Nat)

/-- Taking bytes from one buffer is related to taking them from another one, where each offset has its
place, and the relation goes through steps that are taken one after the other. -/
structure ReadsAlongside : Prop where
  refl {α : Type} (x : Except ReadError α) : R x x
  bind {α β : Type} {x y : Except ReadError α} {f g : α → Except ReadError β} (h : R x y)
    (hf : ∀ a, x = .ok a → R (f a) (g a)) : R (x >>= f) (y >>= g)
  within {α : Type} {x y : Except ReadError α} (name : String) (h : R x y) :
    R (x.mapError (ReadError.within name)) (y.mapError (ReadError.within name))
  further (offset size : Nat) : place (offset + size) = place offset + size
  byte (offset : Nat) : R (Varint.readByte buf offset) (Varint.readByte buf' (place offset))
  taken (offset count : Nat) : R (takeBytes buf offset count) (takeBytes buf' (place offset) count)
  counted (offset count : Nat) :
    R (takeCounted buf offset count) (takeCounted buf' (place offset) count)

/-- If a codec counts items, the guard against items without bytes treats those of both buffers alike. -/
def Codec.GuardsAlongside : Codec → Prop
  | .countedArray _ element => ∀ scope offset item, element.decode buf scope offset = .ok item →
      ∀ count start, R (guardZeroWidth count (buf.length - start) item)
        (guardZeroWidth count (buf'.length - place start) item)
  | _ => True

end

namespace ReadsAlongside

variable {R : ∀ {α : Type}, Except ReadError α → Except ReadError α → Prop} {buf buf' : Bytes}
  {place : Nat → Nat}

theorem bind_same {α β : Type} {x y : Except ReadError α} {f : α → Except ReadError β}
    (h : ReadsAlongside R buf buf' place) (hxy : R x y) : R (x >>= f) (y >>= f) :=
  h.bind hxy fun a _ => h.refl (f a)

theorem groups (h : ReadsAlongside R buf buf' place) (left offset : Nat) :
    R (Varint.readGroups buf left offset) (Varint.readGroups buf' left (place offset)) := by
  induction left generalizing offset with
  | zero => exact h.refl _
  | succ left ih =>
    apply h.bind (h.byte offset)
    intro b _
    split
    · exact h.refl _
    · rw [← h.further]
      exact h.bind_same (ih (offset + 1))

theorem scalar (h : ReadsAlongside R buf buf' place) (s : Scalar) (offset : Nat) :
    R (s.read buf offset) (s.read buf' (place offset)) := by
  cases s with
  | varint => exact h.bind_same (h.bind_same (h.groups Varint.maxGroups offset))
  | void => exact h.refl _
  | _ => exact h.bind_same (h.taken offset _)

theorem items (h : ReadsAlongside R buf buf' place) {read read' : Nat → Except ReadError Decoded}
    (hread : ∀ offset, R (read offset) (read' (place offset))) (count offset : Nat) :
    R (readItems read count offset) (readItems read' count (place offset)) := by
  induction count generalizing offset with
  | zero => exact h.refl _
  | succ count ih =>
    apply h.bind (hread offset)
    intro item _
    rw [← h.further]
    exact h.bind_same (ih (offset + item.size))

private theorem fields (h : ReadsAlongside R buf buf' place) {fields : List (String × Codec)}
    (ih : ∀ field ∈ fields, ∀ scope offset, R (field.2.decode buf scope offset)
      (field.2.decode buf' scope (place offset))) (scope : Scope) (offset : Nat) (record : Record) :
    R (Codec.decodeFields fields buf scope offset record)
      (Codec.decodeFields fields buf' scope (place offset) record) := by
  induction fields generalizing offset record with
  | nil => exact h.refl _
  | cons field rest ihRest =>
    obtain ⟨name, c⟩ := field
    have hc := ih (name, c) List.mem_cons_self (record :: scope) offset
    have hrest := ihRest fun field hf => ih field (List.mem_cons_of_mem _ hf)
    apply h.bind (h.within name hc)
    intro item _
    rw [← h.further]
    exact h.bind_same (hrest _ _)

theorem decode (h : ReadsAlongside R buf buf' place) {c : Codec}
    (hc : c.Everywhere (Codec.GuardsAlongside R buf buf' place)) :
    ∀ scope offset, R (c.decode buf scope offset) (c.decode buf' scope (place offset)) := by
  induction c with
  | scalar p =>
    intro scope offset
    exact h.bind_same (h.scalar p.scalar offset)
  | text count ih =>
    intro scope offset
    apply h.bind (ih (hc.part List.mem_cons_self) scope offset)
    intro announced _
    apply h.bind (h.refl _)
    intro length _
    rw [← h.further]
    exact h.bind_same (h.counted _ length)
  | block length =>
    intro scope offset
    exact h.bind_same (h.counted offset length)
  | countedBlock count ih =>
    intro scope offset
    apply h.bind (ih (hc.part List.mem_cons_self) scope offset)
    intro announced _
    apply h.bind (h.refl _)
    intro length _
    rw [← h.further]
    exact h.bind_same (h.counted _ length)
  | option inner ih =>
    intro scope offset
    apply h.bind (h.taken offset 1)
    intro presence _
    split
    · exact h.refl _
    · rw [← h.further]
      exact h.bind_same (ih (hc.part List.mem_cons_self) scope (offset + 1))
  | array element length ih =>
    intro scope offset
    exact h.bind_same (h.items (ih (hc.part List.mem_cons_self) scope) length offset)
  | countedArray count element ihCount ihElement =>
    intro scope offset
    have hguard := hc.self
    have helement := ihElement (hc.part (List.mem_cons_of_mem _ List.mem_cons_self)) scope
    apply h.bind (ihCount (hc.part List.mem_cons_self) scope offset)
    intro announced _
    apply h.bind (h.refl _)
    intro length _
    simp only [← h.further]
    refine h.bind_same (h.items (fun start => ?_) length _)
    exact h.bind (helement start) fun item hitem => hguard scope start item hitem length _
  | container fields ih =>
    intro scope offset
    exact h.bind_same (h.fields (fun field hf => ih field hf (hc.field hf)) scope offset [])
  | switch on branches default size ihBranches ihDefault =>
    intro scope offset
    simp only [Codec.decode_switch]
    cases on.key scope with
    | error fault => exact h.refl _
    | ok key =>
      exact Codec.alternative_of_forall
        (P := fun d => d.Everywhere (Codec.GuardsAlongside R buf buf' place) →
          R (d.decode buf scope offset) (d.decode buf' scope (place offset)))
        (fun branch hb hw => ihBranches branch hb hw scope offset)
        (fun hw => ihDefault hw scope offset) key (hc.alternative key)

end ReadsAlongside

end PacketCodec
