import CampaignRules.Error
import CampaignRules.Graph.Component

/-! # Chains of writes

An effect that reads a variable depends on every other effect that writes it. These links are
derived from the edges to variables, so an effect that feeds back into itself is on a cycle. Edges
carry their variable in their metadata, and nodes of effects their record's id; metadata that is
something else makes the derivation fail. -/

namespace CampaignRules.Graph

/-- The text in a field of metadata, empty if it is left out. -/
def metadataText (field : String) (metadata : Json) : Except Error Bytes :=
  match metadata with
  | .object members =>
    match Json.Members.get? field members with
    | none => .ok []
    | some (.string s) => .ok s
    | some _ => .error (.json .wrongType)
  | _ => .error (.json .wrongType)

def isEffect (g : Graph) (id : Bytes) : Bool :=
  (g.node? id).any fun n => n.type = .effect

/-- A link between effects that was derived before. -/
def isChainLink (g : Graph) (e : Edge) : Bool :=
  e.type = .dependsOn && g.isEffect e.source && g.isEffect e.target

def withoutChains (g : Graph) : Graph :=
  { g with edges := g.edges.filter fun e => !g.isChainLink e }

/-- The effects that write a variable, in the order of their edges. -/
def writersOf (g : Graph) (target : Bytes) : List Bytes :=
  (g.edges.filter fun e => e.type = .writes && g.isEffect e.source && e.target = target).map
    (·.source)

/-- The links that one reading edge gives rise to. -/
def linksOf (g : Graph) (e : Edge) : Except Error (List Edge) :=
  if e.type = .reads && g.isEffect e.source then
    let writers := (g.writersOf e.target).filter (· ≠ e.source)
    if writers.isEmpty then .ok []
    else do
      let name ← metadataText "variable" e.metadata
      return writers.map fun writer => ⟨e.source, writer, .dependsOn, .object [("via", name)]⟩
  else .ok []

def chainLinks (g : Graph) : Except Error (List Edge) := do
  return (← g.edges.mapM g.linksOf).flatten

/-- Changes to a graph. What was changed before a failure stays. -/
abbrev Edit := ExceptT Error (StateM Graph)

/-- Replaces all links between effects by those that the other edges give rise to. -/
def linkWriteChains : Edit Unit := do
  modify withoutChains
  let links ← liftExcept (chainLinks (← get))
  modify fun g => g.addEdges links

/-- The record ids of the effects on cycles. -/
def cyclicEffects (g : Graph) : Except Error (List Bytes) := do
  let effects := (g.cycleMembers.filterMap fun id => g.node? id).filter fun n => n.type = .effect
  return Bytes.sortedSet (← effects.mapM fun n => metadataText "effectId" n.metadata)

end CampaignRules.Graph
