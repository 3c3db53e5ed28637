import CampaignRules.Resolution.Run
import Mathlib.Data.List.Forall2

/-! # The bookkeeping of a phase

While a phase runs, its summary counts the effects by what became of them, keeps the errors of those
that failed and lists the effects that were tried. All of it can be told from the outcomes alone, which
is what the theory of resolutions speaks of. -/

namespace CampaignRules

namespace PhaseSummary

/-- What the summary counts and lists is what its outcomes show. -/
structure IsTally (s : PhaseSummary) : Prop where
  succeeded : s.succeeded = s.outcomes.countP (·.fate.isApplied)
  skipped : s.skipped = s.outcomes.countP (·.fate.isSkipped)
  failed : s.failed = s.outcomes.countP (·.fate.report?.isSome)
  errors : s.errors = s.outcomes.filterMap fun o => o.fate.report?.map (o.effectId, ·)
  executionOrder : s.executionOrder = s.outcomes.map (·.effectId)

theorem isTally_start (phase : Phase) (total : Nat) : IsTally { phase, total } :=
  ⟨rfl, rfl, rfl, rfl, rfl⟩

variable {s : PhaseSummary} {effect : Effect} {outcome : EffectOutcome}

@[simp] theorem phase_note : ((s.list effect).note effect outcome).phase = s.phase := by
  cases hfate : outcome.fate <;> simp only [note, count, hfate, list]

@[simp] theorem total_note : ((s.list effect).note effect outcome).total = s.total := by
  cases hfate : outcome.fate <;> simp only [note, count, hfate, list]

@[simp] theorem outcomes_note :
    ((s.list effect).note effect outcome).outcomes = s.outcomes ++ [outcome] := by
  cases hfate : outcome.fate <;> simp only [note, count, hfate, list]

/-- Trying one more effect keeps the books. -/
theorem IsTally.note (h : s.IsTally) (hid : outcome.effectId = effect.id) :
    ((s.list effect).note effect outcome).IsTally := by
  obtain ⟨hsucceeded, hskipped, hfailed, herrors, horder⟩ := h
  cases hfate : outcome.fate with
  | applied _ | skipped | failed _ =>
      constructor <;>
        simp [PhaseSummary.note, count, list, hfate, hid, hsucceeded, hskipped, hfailed, herrors,
          horder, Fate.isApplied, Fate.isSkipped, Fate.report?]

/-- Each effect is counted once, by what became of it. -/
theorem IsTally.sum_eq_length (h : s.IsTally) :
    s.succeeded + s.failed + s.skipped = s.outcomes.length := by
  rw [h.succeeded, h.failed, h.skipped]
  induction s.outcomes with
  | nil => rfl
  | cons outcome rest ih =>
      rw [List.length_cons, List.countP_cons, List.countP_cons, List.countP_cons, ← ih]
      cases outcome.fate with
      | applied _ | skipped | failed _ =>
          dsimp [Fate.isApplied, Fate.isSkipped, Fate.report?]
          omega

end PhaseSummary

namespace Resolution

/-- The outcomes that failed, in the order in which they came. -/
def failures (outcomes : List EffectOutcome) : List EffectOutcome :=
  outcomes.filter fun outcome => outcome.fate.name = ("FAILED" : Bytes)

theorem failures_cons (outcome : EffectOutcome) (rest : List EffectOutcome) :
    failures (outcome :: rest) =
      if outcome.fate.report?.isSome then outcome :: failures rest else failures rest := by
  rw [failures, List.filter_cons, failures]
  cases outcome.fate with
  | applied _ | skipped | failed _ => rfl

/-- The errors of a phase are those of its failures. -/
theorem errors_match_failures {summary : PhaseSummary} (h : summary.IsTally) :
    List.Forall₂ (fun error outcome =>
        error.1 = outcome.effectId ∧ outcome.fate = .failed error.2)
      summary.errors (failures summary.outcomes) := by
  rw [h.errors]
  induction summary.outcomes with
  | nil => exact .nil
  | cons outcome rest ih =>
      rw [failures_cons, List.filterMap_cons]
      cases hfate : outcome.fate with
      | applied _ | skipped => exact ih
      | failed report => exact .cons ⟨rfl, hfate⟩ ih

end Resolution

end CampaignRules
