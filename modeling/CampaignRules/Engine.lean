import CampaignRules.Expr.Recording
import CampaignRules.Expr.Validation
import CampaignRules.Graph.Cache
import CampaignRules.Graph.Cycles
import CampaignRules.Graph.Order
import CampaignRules.Graph.Reach
import CampaignRules.Resolution.Run
import CampaignRules.Snapshot
import CampaignRules.Task

/-! # The engine

An engine answers questions about the records of a snapshot: what conditions evaluate to, what the
records depend on, and what an entity becomes when it is resolved. It changes no record. Between
questions it keeps the graphs that it has built, even if the records are loaded anew. -/

namespace CampaignRules

/-- How the program calls itself, to its users and to callers of its services. -/
def Program.name : Bytes := "sigil"

def Program.version : Bytes := "0.4.0"

/-- The campaign and the branch are those of questions that name none. -/
structure Engine.Options where
  campaign : Bytes := []
  branch : Bytes := "main"
  depthLimit : Nat := 10
  refuseCyclicWrites : Bool := false
  linkWriteChains : Bool := true

structure Engine where
  options : Engine.Options
  registry : Registry
  source : Snapshot
  cache : GraphCache

/-- The value of an expression or why it has none, with the steps up to there. -/
structure Evaluation where
  outcome : Except Report Json
  trace : List TraceStep

def Evaluation.toJson (e : Evaluation) : Json :=
  let trace := Json.array (e.trace.map TraceStep.toJson)
  match e.outcome with
  | .ok value =>
    .ofMembers [("success", true), ("value", value), ("trace", trace), ("error", .null)]
  | .error report =>
    .ofMembers [("success", false), ("value", .null), ("trace", trace),
      ("error", report.message), ("errorKind", report.kind.name)]

namespace Engine

def ofSnapshot (options : Options) (registry : Registry) (source : Snapshot) : Engine :=
  ⟨options, registry, source, .empty⟩

/-- The outcome and the trace of an evaluation; an expression that cannot be read has no trace. -/
def traced (registry : Registry) (expression context : Json) :
    Except Error Json × List TraceStep :=
  match Expr.ofJson expression with
  | .ok expr =>
    let (outcome, slots) := expr.record registry context #[]
    (outcome, slots.toList.map Slot.toTraceStep)
  | .error e => (.error e, [])

def evaluateExpression (engine : Engine) (expression context : Json) : Logged Evaluation := do
  let (outcome, trace) := traced engine.registry expression context
  match outcome with
  | .ok value => return ⟨.ok value, trace⟩
  | .error e =>
    match e.report? with
    | some report =>
      .record (Log.debug "engine" ["Evaluation failed: ", report.message])
      return ⟨.error report, trace⟩
    | none => .fail e

/-- Evaluates the expression of a condition, which has to be there and active. -/
def evaluateCondition (engine : Engine) (id : Bytes) (context : Json) : Logged Evaluation :=
  match engine.source.condition? id with
  | none => return ⟨.error ⟨.recordNotFound, "Condition " ++ id ++ " not found"⟩, []⟩
  | some c =>
    if c.isActive then engine.evaluateExpression c.expression context
    else return ⟨.error ⟨.recordNotFound, "Condition " ++ id ++ " is inactive"⟩, []⟩

def checkExpression (engine : Engine) (expression : Json) : List Expr.Finding :=
  Expr.check engine.registry engine.options.depthLimit expression

/-- The graph of the records in a campaign and a branch, and what there is to log about it. -/
def buildGraph (engine : Engine) (campaign branch : Bytes) : GraphBuild × List Log.Event :=
  let source := engine.source
  let build := GraphBuild.ofRecords engine.options.linkWriteChains
    (source.conditionsIn campaign branch) (source.effectsIn campaign branch)
    (source.entitiesIn campaign branch)
  (build, build.log)

def campaignOr (engine : Engine) (campaign : Bytes) : Bytes :=
  if campaign.isEmpty then engine.options.campaign else campaign

def branchOr (engine : Engine) (branch : Bytes) : Bytes :=
  if branch.isEmpty then engine.options.branch else branch

/-- The graph of a campaign and a branch, which is built unless it is cached. -/
def dependencyGraph (campaign branch : Bytes) : Task Engine GraphBuild := do
  let engine ← Task.state
  let answer := engine.cache.getOrBuild (engine.campaignOr campaign) (engine.branchOr branch)
    engine.buildGraph
  .log answer.log
  .setState { engine with cache := answer.cache }
  return answer.build

/-- Drops the cached graph of a campaign and a branch, and tells whether there was one. -/
def invalidateGraph (campaign branch : Bytes) : Task Engine Bool := do
  let engine ← Task.state
  let campaign := engine.campaignOr campaign
  let branch := engine.branchOr branch
  .log (engine.cache.invalidationLog campaign branch)
  .setState { engine with cache := engine.cache.invalidate campaign branch }
  return (engine.cache.peek campaign branch).isSome

/-- The guards of some effects, as far as there are such conditions. -/
def guardsOf (engine : Engine) (effects : List Effect) : List Condition :=
  (effects.filterMap (·.guardId)).eraseDups.filterMap fun id => engine.source.condition? id

/-- The effects on cycles of writes where an entity is, as far as they matter. -/
def cyclicEffects (entity : Entity) : Task Engine (List Bytes) := do
  if (← Task.state).options.refuseCyclicWrites then
    let build ← dependencyGraph entity.campaignId entity.branchId
    .ofExcept build.graph.cyclicEffects
  else return []

/-- The resolution of an entity that is not there. -/
def unknownEntity (ref : EntityRef) : Resolution where
  failure := some ⟨.recordNotFound, ref.type ++ " with ID " ++ ref.id ++ " not found"⟩
  entity := ⟨ref, [], "main", .object []⟩
  pre := none
  onResolve := none
  post := none

/-- Resolves an entity by an action; guards see the extra members too. -/
def resolve (ref : EntityRef) (action : CoreAction) (extra : Json) : Task Engine Resolution := do
  let engine ← Task.state
  match engine.source.entity? ref with
  | none => return unknownEntity ref
  | some entity =>
    let effects := engine.source.effectsOf entity.ref
    let setting : Setting :=
      { registry := engine.registry
        effects
        conditions := engine.guardsOf effects
        cyclic := ← cyclicEffects entity
        refuseCyclic := engine.options.refuseCyclicWrites
        extra }
    .ofLogged (Resolution.resolve setting action entity)

def resolveEncounter (now : Moment) (id : Bytes) (extra : Json) : Task Engine Resolution :=
  resolve ⟨EntityRef.encounter, id⟩ (.resolveEncounter now) extra

def resolveEvent (now : Moment) (id : Bytes) (extra : Json) : Task Engine Resolution :=
  resolve ⟨EntityRef.event, id⟩ (.completeEvent now) extra

end Engine

end CampaignRules
