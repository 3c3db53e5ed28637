import CampaignRules.Tool.Basic

/-! # Tools for resolutions

A resolved entity is handed back; nothing is stored. -/

namespace CampaignRules.Tool

def extraContextParameter : Parameter where
  name := "extraContext"
  type := some "object"
  description := "Merged into guard context"

def phaseText (s : PhaseSummary) : Bytes :=
  s.phase.name ++ ": " ++ s.status ++ " (" ++ Bytes.decimal s.succeeded ++
    " applied, " ++ Bytes.decimal s.skipped ++ " skipped, " ++ Bytes.decimal s.failed ++
    " failed)"

/-- The entity and what became of it, phase by phase. -/
def resolutionText (r : Resolution) : Bytes :=
  let entity := r.entity.ref.type ++ " " ++ r.entity.ref.id
  match r.failure with
  | some report => "Resolution of " ++ entity ++ " failed: " ++ report.message
  | none => "Resolved " ++ entity ++
    itemLines "" (([r.pre, r.onResolve, r.post].filterMap id).map phaseText)

def resolutionResult (r : Resolution) : Result :=
  ⟨r.failure.isSome, resolutionText r, r.toJson⟩

def resolveEncounter : Tool where
  name := "resolve_encounter"
  description := "Run PRE, ON_RESOLVE and POST effects around marking an encounter resolved."
  parameters :=
    [{ name := "encounterId", type := some "string", description := "Encounter record id",
       isRequired := true },
     extraContextParameter]
  run now arguments := do
    let id ← .ofExcept (textArgument "encounterId" arguments)
    let extra := valueArgumentOrEmpty "extraContext" arguments
    return resolutionResult (← Engine.resolveEncounter now id extra)

def resolveEvent : Tool where
  name := "resolve_event"
  description := "Run PRE, ON_RESOLVE and POST effects around marking an event completed."
  parameters :=
    [{ name := "eventId", type := some "string", description := "Event record id",
       isRequired := true },
     extraContextParameter]
  run now arguments := do
    let id ← .ofExcept (textArgument "eventId" arguments)
    let extra := valueArgumentOrEmpty "extraContext" arguments
    return resolutionResult (← Engine.resolveEvent now id extra)

def resolutionTools : List Tool :=
  [resolveEncounter, resolveEvent]

end CampaignRules.Tool
