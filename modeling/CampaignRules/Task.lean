import CampaignRules.Log

/-! # Tasks

A task works on a state, logs, and ends with a value or a failure. A failure undoes nothing: what
the state has become by then is kept. -/

namespace CampaignRules

/-- The state after a task, and what the task came to. -/
def Task (σ α : Type) := σ → σ × Logged α

namespace Task

variable {σ α β : Type}

def pure (a : α) : Task σ α := fun s =>
  (s, Pure.pure a)

def bind (x : Task σ α) (f : α → Task σ β) : Task σ β := fun s =>
  let (s, x) := x s
  match x.outcome with
  | .ok a =>
    let (s, y) := f a s
    (s, ⟨x.entries ++ y.entries, y.outcome⟩)
  | .error e => (s, ⟨x.entries, .error e⟩)

instance : Monad (Task σ) where
  pure := pure
  bind := bind

/-- A computation that leaves the state alone. -/
def ofLogged (x : Logged α) : Task σ α := fun s => (s, x)

def ofExcept (x : Except Error α) : Task σ α :=
  ofLogged (.ofExcept x)

def fail (e : Error) : Task σ α :=
  ofLogged (.fail e)

def log (events : List Log.Event) : Task σ Unit :=
  ofLogged (.recordAll events)

/-- The state so far. -/
def state : Task σ σ := fun s => (s, Pure.pure s)

def setState (s : σ) : Task σ Unit := fun _ => (s, Pure.pure ())

/-- Ends with the outcome of a task, be it a failure. -/
def attempt (x : Task σ α) : Task σ (Except Error α) := fun s =>
  let (s, x) := x s
  (s, ⟨x.entries, .ok x.outcome⟩)

end Task

end CampaignRules
