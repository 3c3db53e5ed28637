/-! # Computations that leave a record

Such a computation ends with a value or a failure, and whatever it recorded on the way is kept in
both cases. -/

namespace CampaignRules

/-- A chain of steps succeeds if each of them does. -/
theorem bind_eq_ok {ε α β : Type} {x : Except ε α} {f : α → Except ε β} {b : β} :
    x >>= f = .ok b ↔ ∃ a, x = .ok a ∧ f a = .ok b := by
  cases x with
  | error e =>
      constructor
      · intro h
        cases h
      · rintro ⟨_, h, -⟩
        cases h
  | ok a =>
      constructor
      · exact fun h => ⟨a, rfl, h⟩
      · rintro ⟨_, h, hf⟩
        cases h
        exact hf

theorem mapError_eq_ok {ε δ α : Type} {x : Except ε α} {lift : ε → δ} {a : α} :
    x.mapError lift = .ok a ↔ x = .ok a := by
  cases x with
  | error e =>
      constructor <;> intro h <;> cases h
  | ok b =>
      constructor <;> intro h <;> cases h <;> rfl

structure Recorded (ω ε α : Type) where
  entries : List ω
  outcome : Except ε α

namespace Recorded

variable {ω ε α β : Type}

def pure (a : α) : Recorded ω ε α :=
  ⟨[], .ok a⟩

def fail (e : ε) : Recorded ω ε α :=
  ⟨[], .error e⟩

def record (entry : ω) : Recorded ω ε Unit :=
  ⟨[entry], .ok ()⟩

def recordAll (entries : List ω) : Recorded ω ε Unit :=
  ⟨entries, .ok ()⟩

def ofExcept (outcome : Except ε α) : Recorded ω ε α :=
  ⟨[], outcome⟩

def bind (x : Recorded ω ε α) (f : α → Recorded ω ε β) : Recorded ω ε β :=
  match x.outcome with
  | .ok a =>
    let y := f a
    ⟨x.entries ++ y.entries, y.outcome⟩
  | .error e => ⟨x.entries, .error e⟩

instance : Monad (Recorded ω ε) where
  pure := pure
  bind := bind

@[simp] theorem outcome_pure (a : α) :
    (Pure.pure a : Recorded ω ε α).outcome = .ok a := rfl

@[simp] theorem outcome_fail (e : ε) : (fail e : Recorded ω ε α).outcome = .error e := rfl

@[simp] theorem outcome_ofExcept (x : Except ε α) :
    (ofExcept x : Recorded ω ε α).outcome = x := rfl

@[simp] theorem outcome_bind (x : Recorded ω ε α) (f : α → Recorded ω ε β) :
    (x >>= f).outcome = x.outcome.bind fun a => (f a).outcome := by
  rcases x with ⟨entries, _ | _⟩ <;> rfl

end Recorded

end CampaignRules
