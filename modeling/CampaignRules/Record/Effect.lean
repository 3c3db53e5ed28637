import CampaignRules.Record.EntityRef
import CampaignRules.Record.Field

/-! # Effects

An effect is a patch that is applied to its owner in one of the phases of a resolution. A guard, if
it has one, is a condition that decides whether it is applied. -/

namespace CampaignRules

/-- The phases of a resolution: before the core action, right after it, and last. -/
inductive Phase where
  | pre
  | onResolve
  | post
  deriving DecidableEq

namespace Phase

def name : Phase → Bytes
  | .pre => "PRE"
  | .onResolve => "ON_RESOLVE"
  | .post => "POST"

def ofName? (name : Bytes) : Option Phase :=
  [Phase.pre, .onResolve, .post].find? fun phase => phase.name = name

end Phase

structure Effect where
  id : Bytes
  name : Bytes
  owner : EntityRef
  timing : Phase
  priority : Int32
  /-- the wire form of the patch -/
  payload : Json
  isActive : Bool
  guardId : Option Bytes
  description : Bytes
  campaignId : Bytes
  branchId : Bytes

namespace Effect

open Record

/-- An effect without a name is called by its id. -/
def ofJson (wire : Json) : Except Error Effect := do
  if !wire.isObject then .error (.invalidRecord (.notObject "Effect"))
  let id ← requiredText "Effect" "id" wire
  let entityType ← requiredText "Effect" "entityType" wire
  let entityId ← requiredText "Effect" "entityId" wire
  let timing := (← optionalText "timing" wire).getD "ON_RESOLVE"
  let timing ← match Phase.ofName? timing with
    | some phase => .ok phase
    | none => .error (.invalidRecord (.unknownTiming id timing))
  let priority ← optionalInt "priority" 0 wire
  let isActive ← optionalBool "isActive" true wire
  let guardId ← optionalText "conditionId" wire
  let campaignId ← optionalText "campaignId" wire
  let branchId ← optionalText "branchId" wire
  return {
    id, timing, priority, isActive, guardId
    name := textOr "name" id wire
    owner := ⟨entityType, entityId⟩
    payload := (wire.get? "payload").getD (.array [])
    description := textOr "description" [] wire
    campaignId := campaignId.getD []
    branchId := branchId.getD "main" }

def toJson (e : Effect) : Json :=
  .ofMembers [("id", e.id), ("name", e.name), ("entityType", e.owner.type),
    ("entityId", e.owner.id), ("timing", e.timing.name), ("priority", .ofInt32 e.priority),
    ("payload", e.payload), ("isActive", e.isActive), ("conditionId", optionalToJson e.guardId),
    ("description", e.description), ("campaignId", e.campaignId), ("branchId", e.branchId)]

end Effect

end CampaignRules
