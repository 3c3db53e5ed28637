import CampaignRules.Expr.Reads
import CampaignRules.Graph.WriteChain
import CampaignRules.Log
import CampaignRules.Patch.Check
import CampaignRules.Patch.Variables
import CampaignRules.Record.Condition
import CampaignRules.Record.Effect
import CampaignRules.Record.Entity

/-! # The graph of some records

A condition reads the variables of its expression, an effect those of its guard and those that its
patch inspects, and it writes those that its patch changes. An entity depends on the conditions and
effects that it owns. Records that cannot be used are left out with a warning. -/

namespace CampaignRules

/-- Why a record is left out, or what is missing from its part of the graph. -/
inductive BuildWarning where
  | unnamedCondition
  | malformedCondition (id : Bytes) (error : Error)
  | duplicateCondition (id : Bytes)
  | unnamedEffect
  | invalidPatch (id : Bytes) (problem : Patch.Problem)
  | unknownGuard (effect guard : Bytes)
  | malformedGuard (effect guard : Bytes) (error : Error)
  | duplicateEffect (id : Bytes)

def BuildWarning.message : BuildWarning → Bytes
  | .unnamedCondition => "Skipping condition with missing id or entity type"
  | .malformedCondition id error => "Skipping condition " ++ id ++ ": " ++ error.message
  | .duplicateCondition id => "Duplicate condition id " ++ id
  | .unnamedEffect => "Skipping effect with missing id or owner"
  | .invalidPatch id problem => "Skipping effect " ++ id ++ ": " ++ problem.message
  | .unknownGuard effect guard => "Effect " ++ effect ++ " references unknown condition " ++ guard
  | .malformedGuard effect guard error =>
    "Effect " ++ effect ++ " guard " ++ guard ++ " is malformed: " ++ error.message
  | .duplicateEffect id => "Duplicate effect id " ++ id

namespace Graph

def variableId (name : Bytes) : Bytes := "VARIABLE:" ++ name

def conditionId (id : Bytes) : Bytes := "CONDITION:" ++ id

def effectId (id : Bytes) : Bytes := "EFFECT:" ++ id

def entityId (ref : EntityRef) : Bytes := "ENTITY:" ++ ref.key

def variableNode (name : Bytes) : Node where
  id := variableId name
  type := .variable
  entityId := []
  label := name
  metadata := .object [("name", name)]
  inCycle := false

/-- Labels of entities by the keys of their references. -/
abbrev Labels := List (Bytes × Bytes)

/-- The names that entities give themselves; a later one counts. -/
def labelsOf (entities : List Entity) : Labels :=
  (entities.filterMap fun e =>
    (e.document.getText? "name").map fun name => (e.ref.key, name)).reverse

def entityNode (labels : Labels) (ref : EntityRef) : Node :=
  let shownId : Bytes := if ref.isTypeLevel then "*" else ref.id
  { id := entityId ref
    type := .entity
    entityId := shownId
    label := (labels.lookup ref.key).getD ref.key
    metadata := .ofMembers [("entityType", ref.type), ("entityId", shownId)]
    inCycle := false }

def conditionNode (c : Condition) : Node where
  id := conditionId c.id
  type := .condition
  entityId := c.entityId.getD "*"
  label := c.entityType ++ "." ++ c.field
  metadata := .ofMembers [("conditionId", c.id), ("entityType", c.entityType),
    ("field", c.field), ("priority", .ofInt32 c.priority), ("description", c.description)]
  inCycle := false

def effectNode (e : Effect) : Node where
  id := effectId e.id
  type := .effect
  entityId := e.owner.id
  label := e.name
  metadata := .ofMembers [("effectId", e.id), ("entityType", e.owner.type),
    ("timing", e.timing.name), ("priority", .ofInt32 e.priority),
    ("conditionId", Record.optionalToJson e.guardId),
    ("patchReads", .ofTexts (Patch.reads e.payload)), ("writes", .ofTexts (Patch.writes e.payload))]
  inCycle := false

/-- An edge to a variable, with what makes the source read it. -/
def readsEdge (source name : Bytes) (reason : String) : Edge :=
  ⟨source, variableId name, .reads, .ofMembers [("variable", name), ("source", reason)]⟩

def writesEdge (source name : Bytes) : Edge :=
  ⟨source, variableId name, .writes, .object [("variable", name)]⟩

def ownsEdge (owner : EntityRef) (id : Bytes) : Edge :=
  ⟨entityId owner, id, .dependsOn, .object []⟩

/-- Adds an edge to each variable, and the variables that are not there. -/
def addVariableEdges (edge : Bytes → Edge) (names : List Bytes) (g : Graph) : Graph :=
  names.foldl (fun g name => (g.addNode (variableNode name)).addEdge (edge name)) g

/-- Adds the owner of a record, if it is not there, and the edge to the record. -/
def addOwner (labels : Labels) (owner : EntityRef) (id : Bytes) (g : Graph) : Graph :=
  (g.addNode (entityNode labels owner)).addEdge (ownsEdge owner id)

/-- The variables that a wire form reads, if it is an expression. -/
def expressionReads (expression : Json) : Except Error (List Bytes) :=
  (Expr.ofJson expression).map Expr.reads

def addCondition (labels : Labels) (c : Condition) (g : Graph) : Graph × List BuildWarning :=
  if c.id.isEmpty || c.entityType.isEmpty then (g, [.unnamedCondition])
  else
    match expressionReads c.expression with
    | .error e => (g, [.malformedCondition c.id e])
    | .ok reads =>
      match g.addNode? (conditionNode c) with
      | none => (g, [.duplicateCondition c.id])
      | some g =>
        let id := conditionId c.id
        (addOwner labels c.owner id
          (addVariableEdges (readsEdge id · "expression") reads g), [])

/-- The variables that the guard of an effect reads, none if it has no guard. -/
def guardReads (e : Effect) (guard : Option Condition) : List Bytes × List BuildWarning :=
  match guard with
  | none => ([], [])
  | some guard =>
    match expressionReads guard.expression with
    | .ok reads => (reads, [])
    | .error error => ([], [.malformedGuard e.id guard.id error])

def addEffect (labels : Labels) (e : Effect) (guard : Option Condition) (g : Graph) :
    Graph × List BuildWarning :=
  if e.id.isEmpty || e.owner.type.isEmpty || e.owner.id.isEmpty then (g, [.unnamedEffect])
  else
    match (Patch.check e.payload e.owner.type).problems with
    | problem :: _ => (g, [.invalidPatch e.id problem])
    | [] =>
      let (reads, warnings) := guardReads e guard
      match g.addNode? (effectNode e) with
      | none => (g, warnings ++ [.duplicateEffect e.id])
      | some g =>
        let id := effectId e.id
        let g := addVariableEdges (readsEdge id · "guard") reads g
        let g := addVariableEdges (readsEdge id · "patch") (Patch.reads e.payload) g
        let g := addVariableEdges (writesEdge id) (Patch.writes e.payload) g
        (addOwner labels e.owner id g, warnings)

/-- The active guard of an effect among the conditions; of several with its id, the last. -/
def guardOf (conditions : List Condition) (e : Effect) : Option Condition × List BuildWarning :=
  match e.guardId with
  | none => (none, [])
  | some id =>
    match conditions.reverse.find? fun c => !c.id.isEmpty && c.id = id with
    | none => (none, [.unknownGuard e.id id])
    | some c => (if c.isActive then some c else none, [])

def addConditions (labels : Labels) (conditions : List Condition) (g : Graph) :
    Graph × List BuildWarning :=
  (conditions.filter (·.isActive)).foldl (fun (g, warnings) c =>
    let (g, more) := addCondition labels c g
    (g, warnings ++ more)) (g, [])

def addEffects (labels : Labels) (conditions : List Condition) (effects : List Effect)
    (g : Graph) : Graph × List BuildWarning :=
  (effects.filter (·.isActive)).foldl (fun (g, warnings) e =>
    let (guard, unknown) := guardOf conditions e
    let (g, more) := addEffect labels e guard g
    (g, warnings ++ unknown ++ more)) (g, [])

/-- Brings the links between effects, if they are wanted, and the marks of cycles up to date. -/
def refresh (linkChains : Bool) : Edit Unit := do
  if linkChains then linkWriteChains
  modify markCycles

end Graph

/-- A graph built from records, with what was found on the way. -/
structure GraphBuild where
  graph : Graph
  warnings : List BuildWarning

namespace GraphBuild

def ofRecords (linkChains : Bool) (conditions : List Condition) (effects : List Effect)
    (entities : List Entity) : GraphBuild :=
  let labels := Graph.labelsOf entities
  let (g, conditionWarnings) := Graph.addConditions labels conditions .empty
  let (g, effectWarnings) := Graph.addEffects labels conditions effects g
  let (_, g) := (Graph.refresh linkChains).run g
  ⟨g, conditionWarnings ++ effectWarnings⟩

def log (build : GraphBuild) : List Log.Event :=
  let g := build.graph
  Log.debug "graph" ["Built dependency graph: ", Bytes.decimal g.nodes.length, " nodes, ",
    Bytes.decimal g.edges.length, " edges, ", Bytes.decimal g.cycleMembers.length, " in cycles, ",
    Bytes.decimal build.warnings.length, " warnings"] ::
    build.warnings.map fun w => Log.warn "graph" [w.message]

def toJson (build : GraphBuild) : Json :=
  build.graph.toJson.set "warnings" (.ofTexts (build.warnings.map BuildWarning.message))

end GraphBuild

end CampaignRules
