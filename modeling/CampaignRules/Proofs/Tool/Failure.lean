import CampaignRules.Proofs.Engine.Refusal
import CampaignRules.Proofs.Expr.Recording
import CampaignRules.Proofs.Resolution.Failure
import CampaignRules.Proofs.Task
import CampaignRules.Tool.Catalogue

/-! # Failures of tools

A call answers what its tool fails with if the failure has a kind or is one of a JSON operation. The
only other failure there is comes from a patch with an oversized position, so it takes a tool that
carries out patches. -/

namespace CampaignRules

/-- What a call of a tool turns into a result. -/
def Error.IsAnswered (e : Error) : Prop :=
  e.IsReportable ∨ ∃ failure, e = .json failure

/-- A computation all failures of which are answered. -/
abbrev Answered {α : Type} (x : Except Error α) : Prop :=
  FailsOnly Error.IsAnswered x

theorem answered_json {α : Type} (failure : Json.Failure) :
    Answered (.error (.json failure) : Except Error α) :=
  .error (.inr ⟨failure, rfl⟩)

namespace Engine

variable {engine : Engine}

theorem reportable_traced (registry : Registry) (expression context : Json) :
    Reportable (traced registry expression context).1 := by
  unfold traced
  have hread := Expr.reportable_ofJson expression
  split
  · rename_i expr _
    have heval : (expr.record registry context #[]).1 = expr.eval registry context :=
      Expr.outcome_record registry expr context []
    dsimp only
    rw [heval]
    exact Expr.reportable_eval registry expr context
  · rename_i e hfailed
    exact .error (hread e hfailed)

/-- An evaluation that fails is an answer too. -/
theorem failsOnly_evaluateExpression {P : Error → Prop} (expression context : Json) :
    FailsOnly P (engine.evaluateExpression expression context).outcome := by
  have htraced := reportable_traced engine.registry expression context
  unfold evaluateExpression
  generalize traced engine.registry expression context = run at htraced
  rcases run with ⟨e | v, steps⟩
  · obtain ⟨report, hreport⟩ := (htraced e rfl).exists_report
    dsimp only
    rw [hreport]
    exact .ok _
  · exact .ok _

theorem failsOnly_evaluateCondition {P : Error → Prop} (id : Bytes) (context : Json) :
    FailsOnly P (engine.evaluateCondition id context).outcome := by
  unfold evaluateCondition
  split
  · exact .ok _
  · split
    · exact failsOnly_evaluateExpression _ context
    · exact .ok _

theorem failsOnly_dependencyGraph {P : Error → Prop} (campaign branch : Bytes) :
    Task.FailsOnly P (dependencyGraph campaign branch) :=
  fun _ => .ok _

theorem failsOnly_invalidateGraph {P : Error → Prop} (campaign branch : Bytes) :
    Task.FailsOnly P (invalidateGraph campaign branch) :=
  fun _ => .ok _

theorem answered_cyclicEffects (entity : Entity) :
    Task.FailsOnly Error.IsAnswered (cyclicEffects entity) := by
  refine Task.FailsOnly.state.bind fun engine => ?_
  split
  · refine (failsOnly_dependencyGraph _ _).bind fun build => .ofExcept ?_
    refine FailsOnly.bind (.mapM fun n => ?_) fun _ => .ok _
    unfold Graph.metadataText
    split
    · split
      · exact .ok _
      · exact .ok _
      · exact answered_json _
    · exact answered_json _
  · exact .pure _

end Engine

namespace Resolution

open Patch

/-- A resolution ends only by what escapes the failures of a patch. -/
theorem escapes_resolve (setting : Setting) (action : CoreAction) (entity : Entity) :
    FailsOnly (fun e => ∃ effect ∈ setting.effects, Escapes effect.payload e)
      (resolve setting action entity).outcome := by
  have hphase : ∀ phase entity, FailsOnly (fun e => ∃ effect ∈ setting.effects,
      Escapes effect.payload e) (runPhase setting phase entity).outcome := by
    intro phase entity
    refine (escapes_runPhase setting phase entity).mono fun e h => ?_
    obtain ⟨effect, hmem, hescapes⟩ := h
    exact ⟨effect, (List.mem_filter.1 (List.mem_mergeSort.1 hmem)).1, hescapes⟩
  rw [resolve, Recorded.outcome_bind]
  refine (hphase .pre entity).bind fun before => ?_
  dsimp only
  split
  · exact .ok _
  · rw [Recorded.outcome_bind]
    refine (hphase .onResolve _).bind fun during => ?_
    rw [Recorded.outcome_bind]
    exact (hphase .post _).bind fun after => .ok _

end Resolution

namespace Engine

open Patch

/-- Resolving an entity fails with what is answered, or by a patch of one of its effects. -/
theorem escapes_resolve (engine : Engine) (ref : EntityRef) (action : CoreAction) (extra : Json) :
    FailsOnly (fun e => e.IsAnswered ∨ ∃ effect ∈ engine.source.effectsOf ref,
      Escapes effect.payload e) (resolve ref action extra engine).2.outcome := by
  cases hentity : engine.source.entity? ref with
  | none =>
      have hstate : Task.state engine = (engine, pure engine) := rfl
      rw [resolve, Task.outcome_bind]
      simp only [hstate, Recorded.outcome_pure, Except.bind, hentity]
      exact .ok _
  | some entity =>
      have href : entity.ref = ref := by
        simpa using List.find?_some hentity
      rw [outcome_resolve_of_entity hentity]
      refine ((answered_cyclicEffects entity engine).mono fun _ => .inl).bind fun cyclic => ?_
      refine (Resolution.escapes_resolve _ action entity).mono fun e h => .inr ?_
      rwa [settingFor, href] at h

end Engine

/-! ### Tools -/

namespace Tool

theorem answered_textArgument (name : Bytes) (arguments : Json) :
    Answered (textArgument name arguments) := by
  unfold textArgument
  split
  · exact .ok _
  · exact answered_json _
  · exact answered_json _

theorem answered_valueArgument (name : Bytes) (arguments : Json) :
    Answered (valueArgument name arguments) := by
  unfold valueArgument
  split
  · exact .ok _
  · exact answered_json _

theorem answered_evaluationResult (heading : Bytes) (e : Evaluation) :
    Answered (evaluationResult heading e) := by
  unfold evaluationResult
  split
  · exact .ok _
  · split
    · exact .ok _
    · exact answered_json _

theorem textArgumentOrEmpty_of_textArgument {name text : Bytes} {arguments : Json}
    (htext : textArgument name arguments = .ok text) : textArgumentOrEmpty name arguments = text := by
  unfold textArgument at htext
  split at htext
  · rename_i hget
    cases htext
    rw [textArgumentOrEmpty, Json.getText?, hget]
    rfl
  all_goals cases htext

theorem answered_scopedBuild (arguments : Json) :
    Task.FailsOnly Error.IsAnswered (scopedBuild arguments) :=
  Engine.failsOnly_dependencyGraph _ _

theorem answered_expressionTools (now : Moment) (arguments : Json) :
    ∀ tool ∈ expressionTools, Task.FailsOnly Error.IsAnswered (tool.run now arguments) := by
  simp only [expressionTools, List.forall_mem_cons, List.not_mem_nil, false_implies, implies_true,
    and_true]
  refine ⟨?_, ?_, ?_, ?_⟩
  · refine (Task.FailsOnly.ofExcept (answered_textArgument _ arguments)).bind fun id => ?_
    refine Task.FailsOnly.state.bind fun engine => ?_
    refine (Task.FailsOnly.ofLogged (Engine.failsOnly_evaluateCondition id _)).bind fun evaluation => ?_
    exact .ofExcept (answered_evaluationResult _ evaluation)
  · refine (Task.FailsOnly.ofExcept (answered_valueArgument _ arguments)).bind fun expression => ?_
    refine Task.FailsOnly.state.bind fun engine => ?_
    refine (Task.FailsOnly.ofLogged
      (Engine.failsOnly_evaluateExpression expression _)).bind fun evaluation => ?_
    exact .ofExcept (answered_evaluationResult _ evaluation)
  · refine (Task.FailsOnly.ofExcept (answered_valueArgument _ arguments)).bind fun expression => ?_
    exact Task.FailsOnly.state.bind fun _ => .pure _
  · exact (Task.FailsOnly.ofExcept (answered_valueArgument _ arguments)).bind fun _ => .pure _

theorem answered_graphTools (now : Moment) (arguments : Json) :
    ∀ tool ∈ graphTools, Task.FailsOnly Error.IsAnswered (tool.run now arguments) := by
  have hbuild := answered_scopedBuild arguments
  simp only [graphTools, List.forall_mem_cons, List.not_mem_nil, false_implies, implies_true,
    and_true]
  refine ⟨?_, ?_, ?_, ?_, ?_, ?_, ?_⟩
  · exact hbuild.bind fun _ => .pure _
  · refine (Task.FailsOnly.ofExcept (answered_textArgument _ arguments)).bind fun id => ?_
    exact hbuild.bind fun _ => .pure _
  · refine (Task.FailsOnly.ofExcept (answered_textArgument _ arguments)).bind fun id => ?_
    exact hbuild.bind fun _ => .pure _
  · exact hbuild.bind fun _ => .pure _
  · refine hbuild.bind fun build => ?_
    dsimp only
    split
    · exact .pure _
    · exact .pure _
  · exact hbuild.bind fun _ => .pure _
  · exact (Engine.failsOnly_invalidateGraph _ _).bind fun _ => .pure _

/-- The patches that a tool carries out when it is called with some arguments. -/
def payloads (tool : Tool) (source : Snapshot) (arguments : Json) : List Json :=
  if tool.name = previewPatch.name then (arguments.get? "payload").toList
  else if tool.name = resolveEncounter.name then
    (source.effectsOf ⟨EntityRef.encounter, textArgumentOrEmpty "encounterId" arguments⟩).map
      (·.payload)
  else if tool.name = resolveEvent.name then
    (source.effectsOf ⟨EntityRef.event, textArgumentOrEmpty "eventId" arguments⟩).map (·.payload)
  else []

/-- One of the patches has an oversized position, and that is the failure. -/
def Escapes (payloads : List Json) (e : Error) : Prop :=
  e = .oversizedIndex ∧ ∃ payload ∈ payloads, Patch.fitsWords payload = false

/-- The failure is answered, or it escapes by one of the patches. -/
def EscapesAtMost (payloads : List Json) (e : Error) : Prop :=
  e.IsAnswered ∨ Escapes payloads e

theorem answered_validatePatch (now : Moment) (arguments : Json) :
    Task.FailsOnly Error.IsAnswered (validatePatch.run now arguments) :=
  (Task.FailsOnly.ofExcept (answered_valueArgument _ arguments)).bind fun _ => .pure _

theorem escapes_previewPatch (now : Moment) (arguments : Json) (engine : Engine) :
    FailsOnly (EscapesAtMost (arguments.get? "payload").toList)
      (previewPatch.run now arguments engine).2.outcome := by
  have hargument : ∀ name, Task.FailsOnly (EscapesAtMost (arguments.get? "payload").toList)
      (Task.ofExcept (valueArgument name arguments) : Task Engine Json) := fun name =>
    .ofExcept ((answered_valueArgument name arguments).mono fun _ => .inl)
  refine (hargument "document").bind (fun document => ?_) engine
  intro engine
  rw [Task.outcome_bind]
  refine (hargument "payload" engine).bind_of_ok fun payload hpayload => ?_
  rw [Task.outcome_bind]
  refine ((Patch.escapes_preview document payload _).mono fun e h => ?_).bind fun preview => .ok _
  have hget : arguments.get? "payload" = some payload := by
    change valueArgument _ arguments = _ at hpayload
    unfold valueArgument at hpayload
    split at hpayload
    · cases hpayload
      assumption
    · cases hpayload
  exact .inr ⟨h.1, payload, by simp [hget], h.2⟩

/-- The tools for resolutions differ in how they name the entity and in what they do to it. -/
theorem escapes_resolution (name type : Bytes) (action : CoreAction) (arguments extra : Json)
    (engine : Engine) :
    FailsOnly (EscapesAtMost ((engine.source.effectsOf
        ⟨type, textArgumentOrEmpty name arguments⟩).map (·.payload)))
      ((do
        let id ← Task.ofExcept (textArgument name arguments)
        return resolutionResult (← Engine.resolve ⟨type, id⟩ action extra) :
          Task Engine Result) engine).2.outcome := by
  rw [Task.outcome_bind]
  refine ((answered_textArgument name arguments).mono fun _ => .inl).bind_of_ok fun id hid => ?_
  rw [textArgumentOrEmpty_of_textArgument hid, Task.outcome_bind]
  refine ((Engine.escapes_resolve engine ⟨type, id⟩ action extra).mono fun e h => ?_).bind
    fun resolution => .ok _
  rcases h with hanswered | ⟨effect, hmem, heq, hwide⟩
  · exact .inl hanswered
  · exact .inr ⟨heq, effect.payload, List.mem_map_of_mem hmem, hwide⟩

/-- Whatever a tool fails with is answered, but for an oversized position in a patch. -/
theorem escapes_run {tool : Tool} (htool : tool ∈ catalogue) (now : Moment) (arguments : Json)
    (engine : Engine) :
    FailsOnly (EscapesAtMost (tool.payloads engine.source arguments))
      (tool.run now arguments engine).2.outcome := by
  have hanswered : ∀ {x : Task Engine Result}, Task.FailsOnly Error.IsAnswered x →
      FailsOnly (EscapesAtMost (tool.payloads engine.source arguments)) (x engine).2.outcome :=
    fun hx => (hx engine).mono fun _ => .inl
  simp only [catalogue, List.mem_append] at htool
  rcases htool with ((hexpression | hpatch) | hresolution) | hgraph
  · exact hanswered (answered_expressionTools now arguments tool hexpression)
  · simp only [patchTools, List.mem_cons, List.not_mem_nil, or_false] at hpatch
    rcases hpatch with rfl | rfl
    · exact hanswered (answered_validatePatch now arguments)
    · exact escapes_previewPatch now arguments engine
  · simp only [resolutionTools, List.mem_cons, List.not_mem_nil, or_false] at hresolution
    rcases hresolution with rfl | rfl
    · exact escapes_resolution "encounterId" EntityRef.encounter (.resolveEncounter now) arguments _
        engine
    · exact escapes_resolution "eventId" EntityRef.event (.completeEvent now) arguments _ engine
  · exact hanswered (answered_graphTools now arguments tool hgraph)

/-- A call fails only by a patch that it carries out. -/
theorem escapes_call {tool : Tool} (htool : tool ∈ catalogue) (now : Moment) (arguments : Json)
    (engine : Engine) :
    FailsOnly (Escapes (tool.payloads engine.source arguments))
      (tool.call now arguments engine).2.outcome := by
  unfold call
  split
  · exact .ok _
  cases missing? tool.required arguments with
  | some name => exact .ok _
  | none =>
      have hrun := escapes_run htool now arguments engine
      dsimp only
      rw [Task.outcome_bind]
      show FailsOnly _ ((Except.ok (tool.run now arguments engine).2.outcome).bind _)
      generalize (tool.run now arguments engine).2.outcome = outcome at hrun
      cases outcome with
      | ok result => exact .ok _
      | error e =>
          rcases hrun e rfl with (hreportable | ⟨failure, rfl⟩) | ⟨rfl, hwide⟩
          · cases e with
            | json _ | oversizedIndex | registration _ | unknownTool _ | external _ => cases hreportable
            | _ => exact .ok _
          · exact .ok _
          · exact .error ⟨rfl, hwide⟩

end Tool

end CampaignRules
