import PacketCodec.Compile.Session

/-!
# What compilations keep

A compilation turns a session into an outcome and a session. A property that every compilation keeps
is shown step by step: of the session before and after each step, and of what the step returns.
-/

namespace PacketCodec

namespace Compile

variable {α β : Type}

def outcome (m : Compile α) (session : Session) : Except SchemaError α :=
  (m.run.run session).1

def after (m : Compile α) (session : Session) : Session :=
  (m.run.run session).2

theorem outcome_bind (m : Compile α) (f : α → Compile β) (session : Session) :
    outcome (m >>= f) session =
      outcome m session >>= fun a => outcome (f a) (after m session) := by
  change (ExceptT.bindCont f (m.run.run session).1 (m.run.run session).2).1 =
    (m.run.run session).1 >>= fun a => ((f a).run.run (m.run.run session).2).1
  cases (m.run.run session).1 <;> rfl

theorem after_bind (m : Compile α) (f : α → Compile β) (session : Session) :
    after (m >>= f) session =
      match outcome m session with
      | .ok a => after (f a) (after m session)
      | .error _ => after m session := by
  change (ExceptT.bindCont f (m.run.run session).1 (m.run.run session).2).2 = _
  unfold outcome
  cases (m.run.run session).1 <;> rfl

theorem outcome_within (name : String) (m : Compile α) (session : Session) :
    outcome (within name m) session = (outcome m session).mapError (Located.within name) := rfl

/-- A compilation keeps a property of the session, and its result, if there is one, has another. -/
def Keeps (inv : Session → Prop) (post : α → Prop) (m : Compile α) : Prop :=
  ∀ session, inv session →
    inv (after m session) ∧ ∀ a, outcome m session = .ok a → post a

variable {inv : Session → Prop} {post : α → Prop} {post' : β → Prop}

theorem keeps_pure {a : α} (h : post a) : Keeps inv post (pure a) := by
  intro session hs
  exact ⟨hs, fun b hb => by cases hb; exact h⟩

theorem keeps_fault (f : SchemaFault) : Keeps inv post (fault f) := by
  intro session hs
  exact ⟨hs, fun b hb => by cases hb⟩

theorem keeps_bind {m : Compile α} {f : α → Compile β} (hm : Keeps inv post m)
    (hf : ∀ a, post a → Keeps inv post' (f a)) : Keeps inv post' (m >>= f) := by
  intro session hs
  have h := hm session hs
  change inv (ExceptT.bindCont f (outcome m session) (after m session)).2 ∧
    ∀ b, (ExceptT.bindCont f (outcome m session) (after m session)).1 = .ok b → post' b
  cases hr : outcome m session with
  | error e => exact ⟨h.1, fun b hb => by cases hb⟩
  | ok a => exact hf a (h.2 a hr) _ h.1

theorem keeps_get : Keeps inv inv (get : Compile Session) :=
  fun _ hs => ⟨hs, fun _ h => by cases h; exact hs⟩

theorem keeps_modify {f : Session → Session} (h : ∀ session, inv session → inv (f session)) :
    Keeps inv (fun _ => True) (modify f : Compile Unit) :=
  fun session hs => ⟨h session hs, fun _ _ => trivial⟩

theorem keeps_within {m : Compile α} (name : String) (hm : Keeps inv post m) :
    Keeps inv post (within name m) := by
  intro session hs
  have h := hm session hs
  refine ⟨h.1, fun b hb => ?_⟩
  rw [outcome_within] at hb
  cases hr : outcome m session with
  | error e => rw [hr] at hb; cases hb
  | ok a => rw [hr] at hb; cases hb; exact h.2 _ hr

/-- A compilation that has a result in every session. -/
def Succeeds (m : Compile α) : Prop :=
  ∀ session, ∃ a, outcome m session = .ok a

theorem succeeds_pure (a : α) : Succeeds (pure a : Compile α) :=
  fun _ => ⟨a, rfl⟩

theorem succeeds_bind {m : Compile α} {f : α → Compile β} (hm : Succeeds m)
    (hf : ∀ a, Succeeds (f a)) : Succeeds (m >>= f) := by
  intro session
  obtain ⟨a, ha⟩ := hm session
  obtain ⟨b, hb⟩ := hf a (after m session)
  exact ⟨b, by rw [outcome_bind, ha]; exact hb⟩

theorem succeeds_modify (f : Session → Session) : Succeeds (modify f : Compile Unit) :=
  fun _ => ⟨(), rfl⟩

theorem succeeds_within {m : Compile α} (name : String) (hm : Succeeds m) :
    Succeeds (within name m) := by
  intro session
  obtain ⟨a, ha⟩ := hm session
  exact ⟨a, by rw [outcome_within, ha]; rfl⟩

end Compile

end PacketCodec
