import CampaignRules.Proofs.Failure
import CampaignRules.Task

/-! # Tasks step by step

What two tasks in a row come to, and what they leave the state as, is told by each of them. -/

namespace CampaignRules.Task

variable {σ α β : Type}

theorem outcome_bind (x : Task σ α) (f : α → Task σ β) (s : σ) :
    ((x >>= f) s).2.outcome = (x s).2.outcome.bind fun a => (f a (x s).1).2.outcome := by
  show (Task.bind x f s).2.outcome = _
  rw [Task.bind]
  rcases x s with ⟨after, entries, e | a⟩
  · rfl
  · rfl

theorem state_state_bind (f : σ → Task σ β) (s : σ) : ((Task.state >>= f) s).1 = (f s s).1 := rfl

theorem state_bind_of_kept (x : Task σ α) (f : α → Task σ β) (s : σ)
    (hkept : ∀ a, (f a (x s).1).1 = (x s).1) : ((x >>= f) s).1 = (x s).1 := by
  show (Task.bind x f s).1 = _
  revert hkept
  rw [Task.bind]
  rcases x s with ⟨after, entries, e | a⟩
  · exact fun _ => rfl
  · exact fun hkept => hkept a

/-- If the task fails in any state, its error is within the bound. -/
def FailsOnly (P : Error → Prop) (x : Task σ α) : Prop :=
  ∀ s, CampaignRules.FailsOnly P (x s).2.outcome

namespace FailsOnly

variable {P : Error → Prop} {x : Task σ α} {f : α → Task σ β}

theorem bind (hx : FailsOnly P x) (hf : ∀ a, FailsOnly P (f a)) : FailsOnly P (x >>= f) := by
  intro s
  rw [outcome_bind]
  exact (hx s).bind fun a => hf a (x s).1

theorem pure (a : α) : FailsOnly P (Pure.pure a : Task σ α) :=
  fun _ => .ok a

theorem ofLogged {y : Logged α} (hy : CampaignRules.FailsOnly P y.outcome) :
    FailsOnly P (Task.ofLogged y : Task σ α) :=
  fun _ => hy

theorem ofExcept {y : Except Error α} (hy : CampaignRules.FailsOnly P y) :
    FailsOnly P (Task.ofExcept y : Task σ α) :=
  ofLogged hy

theorem state : FailsOnly P (Task.state : Task σ σ) :=
  fun s => .ok s

end FailsOnly

end CampaignRules.Task
