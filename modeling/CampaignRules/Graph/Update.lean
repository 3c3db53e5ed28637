import CampaignRules.Graph.Build

/-! # Changing one record of a graph

A condition can be replaced and a record removed without building the graph anew. What other nodes
owe to the condition, which are the guard reads of effects, is brought up to date too. -/

namespace CampaignRules.Graph

/-- The effects that a condition guards, by what their metadata say. -/
def guardedBy (condition : Bytes) (g : Graph) : List Bytes :=
  (g.nodes.filter fun n => n.type = .effect && n.metadata.getText? "conditionId" = some condition).map
    (·.id)

/-- Removes the reading edges of an effect that it has from its guard. -/
def dropGuardReads (effect : Bytes) : Edit Unit := do
  for edge in (← get).outgoing effect do
    if edge.type = .reads then
      let source ← liftExcept (metadataText "source" edge.metadata)
      if source = "guard" then
        modify fun g => g.removeEdge edge.source edge.target (some .reads)

/-- The values that a piece of metadata lists. -/
def listed : Json → List Json
  | .null => []
  | .array items => items
  | .object members => members.map (·.2)
  | v => [v]

/-- Adds the reading edges that an effect has from its patch, as far as their variables are there.
An edge from a guard may have stood in for one of them. -/
def restorePatchReads (effect : Bytes) : Edit Unit := do
  let metadata := ((← get).node? effect).elim .null (·.metadata)
  if !metadata.isObject then throw (.json .wrongType)
  for name in listed ((metadata.get? "patchReads").getD (.array [])) do
    match name with
    | .string name => modify fun g => g.addEdge (readsEdge effect name "patch")
    | _ => throw (.json .wrongType)

/-- The reads of the guard that a condition is, none if it is inactive or malformed. -/
def activeReads (c : Condition) : List Bytes :=
  if c.isActive then (expressionReads c.expression).toOption.getD [] else []

/-- Puts a condition in the place of the one with its id, or removes that if the new one is
inactive. -/
def updateCondition (linkChains : Bool) (c : Condition) : Edit (List BuildWarning) := do
  modify fun g => g.removeNode (conditionId c.id)
  let warnings ← if c.isActive then
      modifyGet fun g =>
        let (g, warnings) := addCondition [] c g
        (warnings, g)
    else pure []
  for effect in (← get).guardedBy c.id do
    dropGuardReads effect
    modify fun g => addVariableEdges (readsEdge effect · "guard") (activeReads c) g
    restorePatchReads effect
  refresh linkChains
  return warnings

/-- Removes a node and tells whether it was there. -/
def removeRecord (linkChains : Bool) (id : Bytes) : Edit Bool := do
  if (← get).hasNode id then
    modify fun g => g.removeNode id
    refresh linkChains
    return true
  else return false

end CampaignRules.Graph
