import CampaignRules.Error
import CampaignRules.Patch.Diff
import CampaignRules.Record.Effect

/-! # What became of effects

Each effect of a phase is applied, skipped because its guard does not hold, or fails. The summary of
a phase tells so for all its effects, in the order in which they were tried. -/

namespace CampaignRules

inductive Fate where
  | applied (diff : Patch.Diff)
  | skipped
  | failed (report : Report)

namespace Fate

def name : Fate → Bytes
  | .applied _ => "APPLIED"
  | .skipped => "SKIPPED"
  | .failed _ => "FAILED"

def isApplied : Fate → Bool
  | .applied _ => true
  | _ => false

def isSkipped : Fate → Bool
  | .skipped => true
  | _ => false

def report? : Fate → Option Report
  | .failed report => some report
  | _ => none

end Fate

structure EffectOutcome where
  effectId : Bytes
  name : Bytes
  priority : Int32
  /-- the value of the guard, null if there is none -/
  guardValue : Json
  fate : Fate

def EffectOutcome.toJson (o : EffectOutcome) : Json :=
  let base := Json.ofMembers [("effectId", o.effectId), ("name", o.name),
    ("priority", .ofInt32 o.priority), ("status", o.fate.name), ("guard", o.guardValue)]
  match o.fate with
  | .applied diff => base.set "diff" diff.toJson
  | .skipped => base
  | .failed report => (base.set "error" report.message).set "errorKind" report.kind.name

/-- What a phase has come to. It is kept effect by effect while the phase runs. -/
structure PhaseSummary where
  phase : Phase
  /-- the number of effects that the phase is to try -/
  total : Nat
  succeeded : Nat := 0
  failed : Nat := 0
  skipped : Nat := 0
  /-- the failures, with the effects that failed -/
  errors : List (Bytes × Report) := []
  outcomes : List EffectOutcome := []
  executionOrder : List Bytes := []

namespace PhaseSummary

/-- An effect is listed before it is tried. -/
def list (s : PhaseSummary) (effect : Effect) : PhaseSummary :=
  { s with executionOrder := s.executionOrder ++ [effect.id] }

/-- Counts an effect by what became of it. -/
def count (s : PhaseSummary) (effect : Effect) : Fate → PhaseSummary
  | .applied _ => { s with succeeded := s.succeeded + 1 }
  | .skipped => { s with skipped := s.skipped + 1 }
  | .failed report =>
    { s with failed := s.failed + 1, errors := s.errors ++ [(effect.id, report)] }

def note (s : PhaseSummary) (effect : Effect) (outcome : EffectOutcome) : PhaseSummary :=
  let counted := s.count effect outcome.fate
  { counted with outcomes := counted.outcomes ++ [outcome] }

/-- A phase with failures has failed as a whole only if no effect was applied. -/
def status (s : PhaseSummary) : Bytes :=
  if s.total = 0 then "EMPTY"
  else if s.failed = 0 then "COMPLETED"
  else if s.succeeded > 0 then "COMPLETED_WITH_WARNINGS"
  else "FAILED"

def errorToJson (error : Bytes × Report) : Json :=
  .ofMembers [("effectId", error.1), ("message", error.2.message), ("kind", error.2.kind.name)]

def toJson (s : PhaseSummary) : Json :=
  .ofMembers [("phase", s.phase.name), ("total", .ofNat s.total),
    ("succeeded", .ofNat s.succeeded), ("failed", .ofNat s.failed), ("skipped", .ofNat s.skipped),
    ("errors", .array (s.errors.map errorToJson)),
    ("results", .array (s.outcomes.map EffectOutcome.toJson)),
    ("executionOrder", .ofTexts s.executionOrder), ("status", s.status)]

end PhaseSummary

end CampaignRules
