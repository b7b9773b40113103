/-!
# Computations that may fail

How a result or an error of a sequence comes about.
-/

namespace Except

variable {ε ε' α β γ : Type}

theorem map_bind {x : Except ε α} {f : α → Except ε β} {g : β → γ} :
    (x >>= f).map g = x >>= fun a => (f a).map g := by
  cases x <;> rfl

theorem mapError_bind {x : Except ε α} {f : α → Except ε β} {g : ε → ε'} :
    (x >>= f).mapError g = x.mapError g >>= fun a => (f a).mapError g := by
  cases x <;> rfl

theorem bind_eq_ok {x : Except ε α} {f : α → Except ε β} {b : β} :
    x >>= f = .ok b ↔ ∃ a, x = .ok a ∧ f a = .ok b := by
  cases x with
  | error e => exact ⟨fun h => (nomatch h), fun ⟨_, h, _⟩ => (nomatch h)⟩
  | ok a => exact ⟨fun h => ⟨a, rfl, h⟩, fun ⟨_, h, hf⟩ => by cases h; exact hf⟩

theorem bind_eq_error {x : Except ε α} {f : α → Except ε β} {e : ε} :
    x >>= f = .error e ↔ x = .error e ∨ ∃ a, x = .ok a ∧ f a = .error e := by
  cases x with
  | error e' =>
    refine ⟨fun h => .inl (by cases h; rfl), fun h => ?_⟩
    rcases h with h | ⟨_, h, _⟩
    · cases h
      rfl
    · cases h
  | ok a =>
    refine ⟨fun h => .inr ⟨a, rfl, h⟩, fun h => ?_⟩
    rcases h with h | ⟨_, h, hf⟩
    · cases h
    · cases h
      exact hf

theorem bind_of_error {x : Except ε α} {e : ε} (h : x = .error e) (f : α → Except ε β) :
    x >>= f = .error e :=
  bind_eq_error.2 (.inl h)

theorem error_of_bind {x : Except ε α} {f : α → Except ε β} {e : ε} (h : x >>= f = .error e)
    (hf : ∀ a, f a ≠ .error e) : x = .error e := by
  rcases bind_eq_error.1 h with hx | ⟨a, _, ha⟩
  · exact hx
  · exact absurd ha (hf a)

theorem mapError_eq_ok {x : Except ε α} {f : ε → ε'} {a : α} :
    x.mapError f = .ok a ↔ x = .ok a := by
  cases x with
  | error e => exact ⟨fun h => (nomatch h), fun h => (nomatch h)⟩
  | ok b => exact ⟨fun h => by cases h; rfl, fun h => by cases h; rfl⟩

theorem mapError_eq_error {x : Except ε α} {f : ε → ε'} {e : ε'} :
    x.mapError f = .error e ↔ ∃ e', x = .error e' ∧ f e' = e := by
  cases x with
  | error e' => exact ⟨fun h => ⟨e', rfl, Except.error.inj h⟩, fun ⟨_, h, hf⟩ => by
      cases h; rw [← hf]; rfl⟩
  | ok a => exact ⟨fun h => (nomatch h), fun ⟨_, h, _⟩ => (nomatch h)⟩

theorem map_eq_ok {x : Except ε α} {f : α → β} {b : β} :
    x.map f = .ok b ↔ ∃ a, x = .ok a ∧ f a = b := by
  cases x with
  | error e => exact ⟨fun h => (nomatch h), fun ⟨_, h, _⟩ => (nomatch h)⟩
  | ok a => exact ⟨fun h => ⟨a, rfl, Except.ok.inj h⟩, fun ⟨_, h, hf⟩ => by cases h; rw [← hf]; rfl⟩

end Except

namespace ExceptT

variable {ε ε' σ α β : Type}

theorem run_run_bind (w : ExceptT ε (StateM σ) α) (f : α → ExceptT ε (StateM σ) β) (state : σ) :
    (w >>= f).run.run state =
      match w.run.run state with
      | (.ok a, state) => (f a).run.run state
      | (.error e, state) => (.error e, state) := by
  change (match w.run.run state with
    | (outcome, state) => (ExceptT.bindCont f outcome).run state) = _
  cases w.run.run state with
  | mk outcome state => cases outcome <;> rfl

theorem run_run_adapt (g : ε → ε') (w : ExceptT ε (StateM σ) α) (state : σ) :
    (ExceptT.adapt g w).run.run state =
      ((w.run.run state).1.mapError g, (w.run.run state).2) := rfl

theorem adapt_bind (g : ε → ε') (w : ExceptT ε (StateM σ) α)
    (f : α → ExceptT ε (StateM σ) β) :
    ExceptT.adapt g (w >>= f) = ExceptT.adapt g w >>= fun a => ExceptT.adapt g (f a) := by
  apply ExceptT.ext
  funext state
  show (ExceptT.adapt g (w >>= f)).run.run state =
    (ExceptT.adapt g w >>= fun a => ExceptT.adapt g (f a)).run.run state
  rw [run_run_adapt, run_run_bind, run_run_bind, run_run_adapt]
  cases w.run.run state with
  | mk outcome state => cases outcome <;> rfl

end ExceptT
