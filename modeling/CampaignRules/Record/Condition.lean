import CampaignRules.Record.EntityRef
import CampaignRules.Record.Field

/-! # Conditions

A condition is an expression attached to a field of an entity, or of all entities of a type. -/

namespace CampaignRules

structure Condition where
  id : Bytes
  entityType : Bytes
  entityId : Option Bytes
  field : Bytes
  /-- the wire form, read when the condition is used -/
  expression : Json
  description : Bytes
  priority : Int32
  isActive : Bool
  version : Int32
  campaignId : Bytes
  branchId : Bytes

namespace Condition

open Record

def owner (c : Condition) : EntityRef :=
  ⟨c.entityType, c.entityId.getD []⟩

def ofJson (wire : Json) : Except Error Condition := do
  if !wire.isObject then .error (.invalidRecord (.notObject "Condition"))
  let id ← requiredText "Condition" "id" wire
  let entityType ← requiredText "Condition" "entityType" wire
  let entityId ← optionalText "entityId" wire
  let field ← optionalText "field" wire
  let priority ← optionalInt "priority" 0 wire
  let isActive ← optionalBool "isActive" true wire
  let version ← optionalInt "version" 1 wire
  let campaignId ← optionalText "campaignId" wire
  let branchId ← optionalText "branchId" wire
  return {
    id, entityType, entityId, priority, isActive, version
    field := field.getD []
    expression := (wire.get? "expression").getD .null
    description := textOr "description" [] wire
    campaignId := campaignId.getD []
    branchId := branchId.getD "main" }

def toJson (c : Condition) : Json :=
  .ofMembers [("id", c.id), ("entityType", c.entityType),
    ("entityId", optionalToJson c.entityId), ("field", c.field), ("expression", c.expression),
    ("description", c.description), ("priority", .ofInt32 c.priority), ("isActive", c.isActive),
    ("version", .ofInt32 c.version), ("campaignId", c.campaignId), ("branchId", c.branchId)]

end Condition

end CampaignRules
