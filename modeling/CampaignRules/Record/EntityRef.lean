import CampaignRules.Bytes

/-! # References to entities

A reference names one entity of a type, or with an empty id all entities of the type. -/

namespace CampaignRules

structure EntityRef where
  type : Bytes
  id : Bytes
  deriving DecidableEq

namespace EntityRef

def encounter : Bytes := "ENCOUNTER"

def event : Bytes := "EVENT"

def isTypeLevel (ref : EntityRef) : Bool :=
  ref.id.isEmpty

/-- The type and the id, or a star for all entities of the type. -/
def key (ref : EntityRef) : Bytes :=
  let id : Bytes := if ref.isTypeLevel then "*" else ref.id
  ref.type ++ ":" ++ id

/-- By type, then by id. -/
def before (a b : EntityRef) : Bool :=
  a.type < b.type || (a.type = b.type && a.id < b.id)

end EntityRef

end CampaignRules
