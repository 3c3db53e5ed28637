import CampaignRules.Error
import CampaignRules.Recorded

/-! # The failures of a computation

What a computation may fail with is bounded by a predicate on errors. The rules here follow the
shape of computations; that two steps in a row stay within a bound is the rule for `>>=`. -/

namespace CampaignRules

/-- A computation the result of which passes a test has a result. -/
theorem exists_ok_of_any {ε α : Type} (x : Except ε α) (p : α → Bool) (h : x.toOption.any p) :
    ∃ a, x = .ok a ∧ p a := by
  cases x with
  | ok a => exact ⟨a, rfl, h⟩
  | error e => cases h

/-- A computation the error of which passes a test fails with it. -/
theorem exists_error_of_any {ε α : Type} (x : Except ε α) (p : ε → Bool)
    (h : (match x with | .ok _ => false | .error e => p e) = true) : ∃ e, x = .error e ∧ p e := by
  cases x with
  | ok a => cases h
  | error e => exact ⟨e, rfl, h⟩

/-- Errors with a kind: they are reported, and whoever runs an effect goes on. -/
def Error.IsReportable (e : Error) : Prop :=
  e.kind?.isSome

theorem Error.IsReportable.exists_report {e : Error} (h : e.IsReportable) :
    ∃ report, e.report? = some report := by
  obtain ⟨kind, hkind⟩ := Option.isSome_iff_exists.1 h
  exact ⟨_, by rw [Error.report?, hkind, Option.map_some]⟩

/-- If the computation fails, its error is within the bound. -/
def FailsOnly {α : Type} (P : Error → Prop) (x : Except Error α) : Prop :=
  ∀ e, x = .error e → P e

namespace FailsOnly

variable {α β : Type} {P Q : Error → Prop} {x : Except Error α} {f : α → Except Error β}

theorem ok (a : α) : FailsOnly P (.ok a) := by
  intro e h
  cases h

theorem error {e : Error} (h : P e) : FailsOnly P (.error e : Except Error α) := by
  intro e h
  cases h
  assumption

theorem mono (hx : FailsOnly P x) (hle : ∀ e, P e → Q e) : FailsOnly Q x :=
  fun e h => hle e (hx e h)

theorem bind_of_ok (hx : FailsOnly P x) (hf : ∀ a, x = .ok a → FailsOnly P (f a)) :
    FailsOnly P (x >>= f) := by
  cases x with
  | ok a => exact hf a rfl
  | error e => exact .error (hx e rfl)

theorem bind (hx : FailsOnly P x) (hf : ∀ a, FailsOnly P (f a)) : FailsOnly P (x >>= f) :=
  hx.bind_of_ok fun a _ => hf a

theorem ite {c : Prop} [Decidable c] {y : Except Error α} (hx : FailsOnly P x)
    (hy : FailsOnly P y) : FailsOnly P (if c then x else y) := by
  split
  · exact hx
  · exact hy

theorem map (g : α → β) (hx : FailsOnly P x) : FailsOnly P (x.map g) := by
  cases x with
  | ok a => exact .ok (g a)
  | error e => exact .error (hx e rfl)

theorem mapM {items : List β} {g : β → Except Error α} (hg : ∀ item, FailsOnly P (g item)) :
    FailsOnly P (items.mapM g) := by
  induction items with
  | nil => exact .ok []
  | cons item rest ih =>
      rw [List.mapM_cons]
      exact (hg item).bind fun _ => ih.bind fun _ => .ok _

theorem mapError {ε : Type} {y : Except ε α} {lift : ε → Error} (hlift : ∀ e, P (lift e)) :
    FailsOnly P (y.mapError lift) := by
  cases y with
  | ok a => exact .ok a
  | error e => exact .error (hlift e)

theorem exists_ok_or (hx : FailsOnly P x) : (∃ a, x = .ok a) ∨ ∃ e, x = .error e ∧ P e := by
  cases x with
  | ok a => exact .inl ⟨a, rfl⟩
  | error e => exact .inr ⟨e, rfl, hx e rfl⟩

end FailsOnly

end CampaignRules
