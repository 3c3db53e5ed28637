import CampaignRules.Proofs.Expr.Failure
import CampaignRules.Proofs.Patch.Failure
import CampaignRules.Proofs.Resolution.Attempt

/-! # Failures of effects

An effect that fails is an outcome of its phase like any other: the failure is recorded, the entity
stays what it was and the next effect is tried. This holds of every failure with a kind, and guards
have no other. A patch has one more, an oversized position, and that one ends the phase. -/

namespace CampaignRules.Resolution

open Patch

variable {setting : Setting}

theorem exists_verdict_of_guard (setting : Setting) (entity : Entity) (guard : Condition) :
    ∃ verdict, judgeGuard setting entity guard = .ok verdict := by
  by_cases hactive : guard.isActive
  · have hreportable : Reportable (guardResult setting entity guard) :=
      (Expr.reportable_ofJson guard.expression).bind fun expr =>
        Expr.reportable_eval setting.registry expr _
    cases hvalue : guardResult setting entity guard with
    | ok value => exact ⟨_, judgeGuard_of_ok hactive hvalue⟩
    | error e =>
        obtain ⟨report, hreport⟩ := (hreportable e hvalue).exists_report
        rw [judgeGuard_of_error hactive hvalue, hreport]
        exact ⟨_, rfl⟩
  · exact ⟨_, if_neg hactive⟩

theorem exists_verdict (setting : Setting) (entity : Entity) (effect : Effect) :
    ∃ verdict, judge setting entity effect = .ok verdict := by
  unfold judge
  split
  · exact ⟨_, rfl⟩
  · split
    · exact ⟨_, rfl⟩
    · split
      · exact ⟨_, rfl⟩
      · exact exists_verdict_of_guard setting entity _

/-- An effect ends its phase only by what escapes the failures of its patch. -/
theorem escapes_runEffect (setting : Setting) (entity : Entity) (effect : Effect) :
    FailsOnly (Escapes effect.payload) (runEffect setting entity effect).outcome := by
  obtain ⟨verdict, hjudge⟩ := exists_verdict setting entity effect
  rw [runEffect, Recorded.outcome_bind, Recorded.outcome_ofExcept, hjudge]
  cases verdict with
  | skip guardValue => exact .ok _
  | fail report => exact .ok _
  | go guardValue =>
      show FailsOnly _ (applyPatch entity effect guardValue).outcome
      rw [applyPatch, Recorded.outcome_bind]
      refine (FailsOnly.ok ()).bind fun _ => ?_
      split
      · exact .ok _
      · rename_i e happly
        split
        · exact .ok _
        · rename_i hreport
          exact .error (escapes_of_report?_eq_none happly hreport)

theorem escapes_runEffects (effects : List Effect) : ∀ (summary : PhaseSummary) (entity : Entity),
    FailsOnly (fun e => ∃ effect ∈ effects, Escapes effect.payload e)
      (runEffects setting summary entity effects).outcome := by
  induction effects with
  | nil => exact fun _ _ => .ok _
  | cons effect rest ih =>
      intro summary entity
      rw [runEffects, Recorded.outcome_bind]
      refine ((escapes_runEffect setting entity effect).mono fun e h => ?_).bind fun first => ?_
      · exact ⟨effect, List.mem_cons_self, h⟩
      · refine (ih _ first.2).mono fun e h => ?_
        obtain ⟨later, hmem, hescapes⟩ := h
        exact ⟨later, List.mem_cons_of_mem _ hmem, hescapes⟩

theorem escapes_runPhase (setting : Setting) (phase : Phase) (entity : Entity) :
    FailsOnly (fun e => ∃ effect ∈ select setting.effects entity.ref phase,
      Escapes effect.payload e) (runPhase setting phase entity).outcome := by
  rw [runPhase, Recorded.outcome_bind]
  refine (escapes_runEffects _ _ entity).bind fun _ => ?_
  dsimp only
  split
  all_goals exact .ok _

/-- A patch is carried out, or it fails with an error of one of its kinds, and a preview shows any
such failure; a phase tries all effects that are selected for it and records those that fail. The one
exception is a patch with an oversized position, the error of which has no kind and may end all
three. -/
theorem failures_contained (document payload : Json) (entityType : Bytes) (setting : Setting)
    (phase : Phase) (entity : Entity) :
    let patched := (apply document payload entityType).outcome
    let previewed := (preview document payload entityType).outcome
    let ran := (runPhase setting phase entity).outcome
    let selected := select setting.effects entity.ref phase
    ((∃ applied, patched = .ok applied) ∨
      (∃ e, patched = .error e ∧ ∃ kind ∈ failureKinds, e.kind? = some kind) ∨
      (patched = .error .oversizedIndex ∧ fitsWords payload = false)) ∧
    ((∃ shown, previewed = .ok shown) ∨
      (previewed = .error .oversizedIndex ∧ fitsWords payload = false)) ∧
    ((∃ summary after, ran = .ok (summary, after) ∧ summary.phase = phase ∧
        Attempts setting entity selected summary.outcomes after ∧
        summary.executionOrder = selected.map (·.id) ∧
        ∀ outcome ∈ summary.outcomes, ∀ report, outcome.fate = .failed report →
          (outcome.effectId, report) ∈ summary.errors) ∨
      (ran = .error .oversizedIndex ∧ ∃ effect ∈ selected, fitsWords effect.payload = false)) := by
  refine ⟨?_, ?_, ?_⟩
  · cases hrun : (apply document payload entityType).outcome with
    | ok applied => exact .inl ⟨applied, rfl⟩
    | error e =>
        rcases failureKind_or_escapes hrun with hkind | ⟨rfl, hwide⟩
        · exact .inr (.inl ⟨e, rfl, hkind⟩)
        · exact .inr (.inr ⟨rfl, hwide⟩)
  · rcases (escapes_preview document payload entityType).exists_ok_or with hok | ⟨e, herror, hescapes⟩
    · exact .inl hok
    · exact .inr ⟨hescapes.1 ▸ herror, hescapes.2⟩
  · rcases (escapes_runPhase setting phase entity).exists_ok_or with ⟨⟨summary, after⟩, hok⟩ | ⟨e, herror, h⟩
    · obtain ⟨hphase, hattempts⟩ := attempts_of_runPhase hok
      refine .inl ⟨summary, after, hok, hphase, hattempts, executionOrder_of_runPhase hok, ?_⟩
      intro outcome hmem report hfate
      rw [(isTally_of_runPhase hok).1.errors]
      exact List.mem_filterMap.2 ⟨outcome, hmem, by rw [hfate]; rfl⟩
    · obtain ⟨effect, hmem, heq, hwide⟩ := h
      exact .inr ⟨heq ▸ herror, effect, hmem, hwide⟩

/-- Of two effects the first would rename the encounter. Its preview shows so; in the phase it fails
and is recorded, and the other adds gold. -/
theorem failures_contained_rename :
    let owner : EntityRef := ⟨EntityRef.encounter, "e1"⟩
    let rename : Effect := ⟨"rename", "rename", owner, .pre, 0,
      .array [.object [("op", "replace"), ("path", "/id"), ("value", "e2")]], true, none, [], [], []⟩
    let reward : Effect := ⟨"reward", "reward", owner, .pre, 0,
      .array [.object [("op", "add"), ("path", "/gold"), ("value", .unsigned 7)]], true, none, [], [], []⟩
    let setting : Setting := ⟨.empty, [rename, reward], [], [], false, .null⟩
    let entity : Entity := ⟨owner, [], [], .object [("id", "e1")]⟩
    (∃ shown, (preview entity.document rename.payload owner.type).outcome = .ok shown) ∧
      ∃ summary after, (runPhase setting .pre entity).outcome = .ok (summary, after) ∧
      summary.executionOrder = [rename.id, reward.id] ∧ summary.errors.map (·.1) = [rename.id] ∧
      after.document.hasKey "gold" := by
  intro owner rename reward setting entity
  have hselect : select setting.effects entity.ref .pre = [rename, reward] :=
    List.mergeSort_of_pairwise (by decide +kernel)
  obtain ⟨⟨summary, after⟩, hrun, hresult⟩ := exists_ok_of_any
    (runPhase setting .pre entity).outcome
    (fun result => result.1.errors.map (·.1) = [rename.id] && result.2.document.hasKey "gold")
    (by rw [runPhase, hselect]; decide +kernel)
  simp only [Bool.and_eq_true, decide_eq_true_eq] at hresult
  obtain ⟨-, hpreview, hphase⟩ :=
    failures_contained entity.document rename.payload owner.type setting .pre entity
  refine ⟨hpreview.resolve_right fun h => absurd h.2 (by decide +kernel), ?_⟩
  rcases hphase with ⟨_, _, hok, -, -, horder, -⟩ | ⟨herror, -⟩
  · cases hok.symm.trans hrun
    rw [hselect] at horder
    exact ⟨summary, after, hrun, horder, hresult⟩
  · cases herror.symm.trans hrun

/-- A patch that would put an item at the position `2 ^ 64` of an empty array has no failure of one of
the kinds: it ends its preview, and the phase in which another effect was still to come. -/
theorem oversized_position_escapes :
    let document := Json.object [("variables", .object [("list", .array [])])]
    let payload := Json.array [.object [("op", "add"),
      ("path", "/variables/list/18446744073709551616"), ("value", .unsigned 1)]]
    let owner : EntityRef := ⟨EntityRef.encounter, "e1"⟩
    let push : Effect := ⟨"push", "push", owner, .pre, 0, payload, true, none, [], [], []⟩
    let reward : Effect := ⟨"reward", "reward", owner, .pre, 0,
      .array [.object [("op", "add"), ("path", "/gold"), ("value", .unsigned 7)]], true, none, [], [], []⟩
    let setting : Setting := ⟨.empty, [push, reward], [], [], false, .null⟩
    let entity : Entity := ⟨owner, [], [], document⟩
    Error.oversizedIndex.kind? = none ∧
      (apply document payload []).outcome = .error .oversizedIndex ∧
      (preview document payload []).outcome = .error .oversizedIndex ∧
      (runPhase setting .pre entity).outcome = .error .oversizedIndex := by
  intro document payload owner push reward setting entity
  have hselect : select setting.effects entity.ref .pre = [push, reward] :=
    List.mergeSort_of_pairwise (by decide +kernel)
  refine ⟨rfl, rfl, rfl, ?_⟩
  rw [runPhase, hselect]
  rfl

end CampaignRules.Resolution
