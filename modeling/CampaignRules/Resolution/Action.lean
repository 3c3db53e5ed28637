import CampaignRules.Clock
import CampaignRules.Json.Coercion
import CampaignRules.Record.Entity

/-! # Core actions

The core action of a resolution marks the entity as resolved, or refuses to. -/

namespace CampaignRules

/-- A change of an entity that may be refused. -/
abbrev CoreAction := Entity → Except Error Entity

namespace CoreAction

/-- A version that is a whole number is counted up; any other stays as it is. -/
def bumpVersion (document : Json) : Json :=
  match document.get? "version" with
  | some version =>
    match version.toInt64? with
    | some n => document.set "version" (.signed (n + 1))
    | none => document
  | none => document

/-- A field of the document that holds a true value. -/
def isSet (field : String) (document : Json) : Bool :=
  (document.get? field).any Json.truthy

/-- A document has to be an object. -/
def requireObject (document : Json) : Except Error Unit :=
  if document.isObject then .ok () else .error (.json .wrongType)

/-- Marks an encounter as resolved, at most once, and tells when. -/
def resolveEncounter (now : Moment) : CoreAction := fun entity => do
  let document := entity.document
  requireObject document
  if isSet "isResolved" document then
    .error (.resolutionFailed (.alreadyResolved entity.ref.id))
  let document := document.set "isResolved" (.bool true)
  let document := document.set "resolvedAt" (.string now.timestamp)
  return { entity with document := bumpVersion document }

/-- Marks an event as completed, at most once. An event that does not say when it occurred occurs
now. -/
def completeEvent (now : Moment) : CoreAction := fun entity => do
  let document := entity.document
  requireObject document
  if isSet "isCompleted" document then
    .error (.resolutionFailed (.alreadyCompleted entity.ref.id))
  let document := document.set "isCompleted" (.bool true)
  let document :=
    match document.get? "occurredAt" with
    | none | some .null => document.set "occurredAt" (.string now.timestamp)
    | some _ => document
  return { entity with document := bumpVersion document }

end CoreAction

end CampaignRules
