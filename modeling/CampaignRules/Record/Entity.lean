import CampaignRules.Patch.Diff
import CampaignRules.Record.EntityRef
import CampaignRules.Record.Field

/-! # Entities

An entity is a document with all its stored fields. One of the fields holds its variables. -/

namespace CampaignRules

structure Entity where
  ref : EntityRef
  campaignId : Bytes
  branchId : Bytes
  document : Json

namespace Entity

open Record

def variableMembers (e : Entity) : Json.Members :=
  Patch.variablesOf e.document

/-- The type may stand in either of two fields. -/
def typeOf (wire : Json) : Except Error Bytes :=
  match wire.getText? "entityType" with
  | some type => .ok type
  | none => requiredText "Entity" "type" wire

/-- Reads an entity; one without variables gets an empty object of them. -/
def ofJson (wire : Json) : Except Error Entity := do
  if !wire.isObject then .error (.invalidRecord (.notObject "Entity"))
  let type ← typeOf wire
  let id ← requiredText "Entity" "id" wire
  let campaignId ← optionalText "campaignId" wire
  let branchId ← optionalText "branchId" wire
  let ref : EntityRef := ⟨type, id⟩
  let document ← match wire.get? "variables" with
    | none | some .null => .ok (wire.set "variables" (.object []))
    | some (.object _) => .ok wire
    | some _ => .error (.invalidRecord (.variablesNotObject ref.key))
  return { ref, campaignId := campaignId.getD [], branchId := branchId.getD "main", document }

/-- The document, with the type where it is looked for first. -/
def toJson (e : Entity) : Json :=
  e.document.set "entityType" e.ref.type

end Entity

end CampaignRules
