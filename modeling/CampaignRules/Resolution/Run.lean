import CampaignRules.Expr.Eval
import CampaignRules.Patch.Apply
import CampaignRules.Record.Condition
import CampaignRules.Resolution.Action
import CampaignRules.Resolution.Outcome

/-! # Resolving an entity

The effects of an entity are applied in three phases around the core action, in each phase by
falling priority and one after the other. An effect that fails is reported and the next one goes
on; only a refusal of the core action ends the resolution, and then the entity stays what it was. -/

namespace CampaignRules

/-- What a resolution works with beside the entity. -/
structure Setting where
  registry : Registry
  effects : List Effect
  conditions : List Condition
  /-- effects on cycles of writes -/
  cyclic : List Bytes
  refuseCyclic : Bool
  /-- what guards see beside the entity -/
  extra : Json

namespace Setting

/-- The condition with an id; of several, the last. -/
def guard? (setting : Setting) (id : Bytes) : Option Condition :=
  setting.conditions.reverse.find? fun c => c.id = id

end Setting

namespace Resolution

def lowercase (text : Bytes) : Bytes :=
  text.map fun b => if 'A'.toUInt8 ≤ b && b ≤ 'Z'.toUInt8 then b + 32 else b

/-- What a guard is evaluated on: the variables of the entity, its document under the name of its
type, and the extra members, later ones in place of earlier ones. -/
def guardContext (extra : Json) (entity : Entity) : Json :=
  let own := Json.Members.set (lowercase entity.ref.type) entity.document entity.variableMembers
  .object ((extra.members?.getD []).foldl (fun context m => Json.Members.set m.1 m.2 context) own)

/-- Whether an effect may be applied, and the value of its guard. -/
inductive Verdict where
  | go (guardValue : Json)
  | skip (guardValue : Json)
  | fail (report : Report)

/-- A guard that is inactive is no guard. -/
def judgeGuard (setting : Setting) (entity : Entity) (guard : Condition) : Except Error Verdict :=
  if guard.isActive then
    let value := do
      (← Expr.ofJson guard.expression).eval setting.registry (guardContext setting.extra entity)
    match value with
    | .ok v => .ok (if v.truthy then .go v else .skip v)
    | .error e =>
      match e.report? with
      | some r => .ok (.fail { r with message := "Guard " ++ guard.id ++ ": " ++ r.message })
      | none => .error e
  else .ok (.go .null)

def refusal (effect : Effect) : Report :=
  ⟨.resolutionFailed, (ResolutionFault.cyclicWrite effect.id).message⟩

def missingGuard (id : Bytes) : Report :=
  ⟨.recordNotFound, "Guard condition " ++ id ++ " not found"⟩

def judge (setting : Setting) (entity : Entity) (effect : Effect) : Except Error Verdict :=
  if setting.refuseCyclic && setting.cyclic.contains effect.id then .ok (.fail (refusal effect))
  else
    match effect.guardId with
    | none => .ok (.go .null)
    | some id =>
      match setting.guard? id with
      | none => .ok (.fail (missingGuard id))
      | some guard => judgeGuard setting entity guard

def outcomeOf (effect : Effect) (guardValue : Json) (fate : Fate) : EffectOutcome :=
  ⟨effect.id, effect.name, effect.priority, guardValue, fate⟩

/-- The outcome of an effect that fails, which is worth a warning. -/
def failed (effect : Effect) (guardValue : Json) (report : Report) : Logged EffectOutcome := do
  .record (Log.warn "pipeline" ["Effect ", effect.id, " failed: ", report.message])
  return outcomeOf effect guardValue (.failed report)

/-- Applies the patch of an effect. A failure without a kind is not the effect's alone. -/
def applyPatch (entity : Entity) (effect : Effect) (guardValue : Json) :
    Logged (EffectOutcome × Entity) := do
  let run := Patch.apply entity.document effect.payload entity.ref.type
  .recordAll run.entries
  match run.outcome with
  | .ok applied =>
    return (outcomeOf effect guardValue (.applied applied.diff),
      { entity with document := applied.document })
  | .error e =>
    match e.report? with
    | some report => return (← failed effect guardValue report, entity)
    | none => .fail e

def runEffect (setting : Setting) (entity : Entity) (effect : Effect) :
    Logged (EffectOutcome × Entity) := do
  match ← .ofExcept (judge setting entity effect) with
  | .go guardValue => applyPatch entity effect guardValue
  | .skip guardValue => return (outcomeOf effect guardValue .skipped, entity)
  | .fail report => return (← failed effect .null report, entity)

/-- The active effects of an entity in a phase, by falling priority and else in the order of the
records. -/
def select (effects : List Effect) (owner : EntityRef) (phase : Phase) : List Effect :=
  (effects.filter fun e => e.isActive && e.timing = phase && e.owner = owner).mergeSort
    fun a b => a.priority ≥ b.priority

/-- Runs effects one after the other, each on the entity that the one before it left. -/
def runEffects (setting : Setting) :
    PhaseSummary → Entity → List Effect → Logged (PhaseSummary × Entity)
  | summary, entity, [] => return (summary, entity)
  | summary, entity, effect :: rest => do
    let listed := summary.list effect
    let (outcome, entity) ← runEffect setting entity effect
    runEffects setting (listed.note effect outcome) entity rest

def phaseEvent (key : Bytes) (s : PhaseSummary) : Log.Event :=
  Log.debug "pipeline" [key, " ", s.phase.name, ": ", Bytes.decimal s.total, " total, ",
    Bytes.decimal s.succeeded, " applied, ", Bytes.decimal s.skipped, " skipped, ",
    Bytes.decimal s.failed, " failed"]

def runPhase (setting : Setting) (phase : Phase) (entity : Entity) :
    Logged (PhaseSummary × Entity) := do
  let selected := select setting.effects entity.ref phase
  let (summary, after) ← runEffects setting { phase, total := selected.length } entity selected
  if summary.total > 0 then .record (phaseEvent after.ref.key summary)
  return (summary, after)

end Resolution

/-- What a resolution came to. Phases that it did not get to have no summary. -/
structure Resolution where
  failure : Option Report
  entity : Entity
  pre : Option PhaseSummary
  onResolve : Option PhaseSummary
  post : Option PhaseSummary

namespace Resolution

def toJson (r : Resolution) : Json :=
  let phase := fun s : Option PhaseSummary => Json.ofOption (s.map PhaseSummary.toJson)
  let base := Json.ofMembers [("ok", r.failure.isNone), ("entity", r.entity.document),
    ("pre", phase r.pre), ("onResolve", phase r.onResolve), ("post", phase r.post)]
  match r.failure with
  | none => base
  | some report => (base.set "error" report.message).set "errorKind" report.kind.name

/-- How a refusal of the core action is reported; without a kind it is a failed resolution. -/
def refusalReport (e : Error) : Report :=
  ⟨e.kind?.getD .resolutionFailed, e.message⟩

def resolvedEvent (key : Bytes) (pre onResolve post : PhaseSummary) : Log.Event :=
  Log.info "pipeline" ["Resolved ", key, ": pre ", pre.status, ", on_resolve ", onResolve.status,
    ", post ", post.status]

/-- Runs the phases around the core action. -/
def resolve (setting : Setting) (action : CoreAction) (entity : Entity) : Logged Resolution := do
  let (pre, working) ← runPhase setting .pre entity
  match action working with
  | .error e =>
    let report := refusalReport e
    .record (Log.warn "pipeline" ["Resolution of ", entity.ref.key, " failed: ", report.message])
    return ⟨some report, entity, some pre, none, none⟩
  | .ok working =>
    let (onResolve, working) ← runPhase setting .onResolve working
    let (post, working) ← runPhase setting .post working
    .record (resolvedEvent entity.ref.key pre onResolve post)
    return ⟨none, working, some pre, some onResolve, some post⟩

end Resolution

end CampaignRules
