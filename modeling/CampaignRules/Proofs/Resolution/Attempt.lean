import CampaignRules.Proofs.Resolution.Summary

/-! # What effects do

An effect that is tried is applied, skipped or failed, and only one that is applied changes the
entity. The relations here tell so without the log; whatever holds of a phase follows from them by
induction, one case for each way in which an attempt can end. -/

namespace CampaignRules.Resolution

open Patch

/-- What a guard comes to on an entity. -/
def guardResult (setting : Setting) (entity : Entity) (guard : Condition) : Except Error Json := do
  (← Expr.ofJson guard.expression).eval setting.registry (guardContext setting.extra entity)

section

variable {setting : Setting} {entity : Entity} {guard : Condition}

theorem judgeGuard_of_ok {value : Json} (hactive : guard.isActive)
    (hvalue : guardResult setting entity guard = .ok value) :
    judgeGuard setting entity guard = .ok (if value.truthy then .go value else .skip value) := by
  rw [guardResult] at hvalue
  simp only [judgeGuard, hactive, if_true, hvalue]

theorem judgeGuard_of_error {e : Error} (hactive : guard.isActive)
    (hvalue : guardResult setting entity guard = .error e) :
    judgeGuard setting entity guard = e.report?.elim (.error e) fun r =>
      .ok (.fail { r with message := "Guard " ++ guard.id ++ ": " ++ r.message }) := by
  rw [guardResult] at hvalue
  simp only [judgeGuard, hactive, if_true, hvalue]
  cases e.report? with
  | none => rfl
  | some r => rfl

end

/-- What comes of trying an effect on an entity. -/
inductive Attempt (setting : Setting) (entity : Entity) (effect : Effect) :
    EffectOutcome → Entity → Prop where
  | applied {guardValue : Json} {applied : Applied}
      (hjudge : judge setting entity effect = .ok (.go guardValue))
      (happly : (apply entity.document effect.payload entity.ref.type).outcome = .ok applied) :
      Attempt setting entity effect (outcomeOf effect guardValue (.applied applied.diff))
        { entity with document := applied.document }
  | skipped {guardValue : Json} (hjudge : judge setting entity effect = .ok (.skip guardValue)) :
      Attempt setting entity effect (outcomeOf effect guardValue .skipped) entity
  | refused {report : Report} (hjudge : judge setting entity effect = .ok (.fail report)) :
      Attempt setting entity effect (outcomeOf effect .null (.failed report)) entity
  | failed {guardValue : Json} {e : Error} {report : Report}
      (hjudge : judge setting entity effect = .ok (.go guardValue))
      (happly : (apply entity.document effect.payload entity.ref.type).outcome = .error e)
      (hreport : e.report? = some report) :
      Attempt setting entity effect (outcomeOf effect guardValue (.failed report)) entity

/-- What comes of trying effects one after the other, each on the entity that the one before it
left. -/
inductive Attempts (setting : Setting) :
    Entity → List Effect → List EffectOutcome → Entity → Prop where
  | nil (entity : Entity) : Attempts setting entity [] [] entity
  | cons {entity middle after : Entity} {effect : Effect} {rest : List Effect}
      {outcome : EffectOutcome} {outcomes : List EffectOutcome}
      (hfirst : Attempt setting entity effect outcome middle)
      (hrest : Attempts setting middle rest outcomes after) :
      Attempts setting entity (effect :: rest) (outcome :: outcomes) after

variable {setting : Setting} {entity after : Entity} {effect : Effect}

theorem Attempt.effectId {outcome : EffectOutcome}
    (h : Attempt setting entity effect outcome after) : outcome.effectId = effect.id := by
  cases h <;> rfl

/-- No effect is left out, and the outcomes are in the order of the effects. -/
theorem Attempts.effectIds {effects : List Effect} {outcomes : List EffectOutcome}
    (h : Attempts setting entity effects outcomes after) :
    outcomes.map (·.effectId) = effects.map (·.id) := by
  induction h with
  | nil => rfl
  | cons hfirst _ ih => rw [List.map_cons, List.map_cons, hfirst.effectId, ih]

theorem Attempt.ref {outcome : EffectOutcome}
    (h : Attempt setting entity effect outcome after) : after.ref = entity.ref := by
  cases h <;> rfl

theorem Attempts.ref {effects : List Effect} {outcomes : List EffectOutcome}
    (h : Attempts setting entity effects outcomes after) : after.ref = entity.ref := by
  induction h with
  | nil => rfl
  | cons hfirst _ ih => exact ih.trans hfirst.ref

/-- What the patches of the effects keep that are applied is kept. -/
theorem Attempts.preserves {kept : Json → Prop} {effects : List Effect} {outcomes : List EffectOutcome}
    (h : Attempts setting entity effects outcomes after) (hkept : kept entity.document)
    (hpatch : ∀ effect ∈ effects, (∃ o ∈ outcomes, o.effectId = effect.id ∧ o.fate.isApplied) →
      ∀ document applied, kept document →
        (apply document effect.payload entity.ref.type).outcome = .ok applied →
        kept applied.document) :
    kept after.document := by
  induction h with
  | nil => exact hkept
  | cons hfirst _ ih =>
      rw [List.forall_mem_cons] at hpatch
      refine ih ?_ fun effect hmem ⟨o, ho, hreported⟩ => ?_
      · cases hfirst with
        | applied _ happly => exact hpatch.1 ⟨_, List.mem_cons_self, rfl, rfl⟩ _ _ hkept happly
        | skipped _ | refused _ | failed _ _ _ => exact hkept
      · exact hfirst.ref ▸ hpatch.2 effect hmem ⟨o, List.mem_cons_of_mem _ ho, hreported⟩

theorem attempt_of_applyPatch {guardValue : Json} {outcome : EffectOutcome}
    (hjudge : judge setting entity effect = .ok (.go guardValue))
    (hrun : (applyPatch entity effect guardValue).outcome = .ok (outcome, after)) :
    Attempt setting entity effect outcome after := by
  rw [applyPatch, Recorded.outcome_bind] at hrun
  obtain ⟨_, -, hrest⟩ := bind_eq_ok.1 hrun
  split at hrest
  · rename_i applied happly
    cases hrest
    exact .applied hjudge happly
  · rename_i e happly
    split at hrest
    · rename_i report hreport
      cases hrest
      exact .failed hjudge happly hreport
    · cases hrest

theorem attempt_of_runEffect {outcome : EffectOutcome}
    (hrun : (runEffect setting entity effect).outcome = .ok (outcome, after)) :
    Attempt setting entity effect outcome after := by
  rw [runEffect, Recorded.outcome_bind] at hrun
  obtain ⟨verdict, hjudge, hrest⟩ := bind_eq_ok.1 hrun
  cases verdict with
  | go guardValue => exact attempt_of_applyPatch hjudge hrest
  | skip guardValue =>
      cases hrest
      exact .skipped hjudge
  | fail report =>
      cases hrest
      exact .refused hjudge

variable {summary last : PhaseSummary}

/-- A run of effects tries the first of them, notes what became of it and goes on with the others. -/
theorem exists_attempt_of_runEffects {rest : List Effect}
    (hrun : (runEffects setting summary entity (effect :: rest)).outcome = .ok (last, after)) :
    ∃ outcome middle, Attempt setting entity effect outcome middle ∧
      (runEffects setting ((summary.list effect).note effect outcome) middle rest).outcome =
        .ok (last, after) := by
  rw [runEffects, Recorded.outcome_bind] at hrun
  obtain ⟨⟨outcome, middle⟩, hfirst, hrest⟩ := bind_eq_ok.1 hrun
  exact ⟨outcome, middle, attempt_of_runEffect hfirst, hrest⟩

theorem attempts_of_runEffects {effects : List Effect} : ∀ {summary : PhaseSummary} {entity : Entity},
    (runEffects setting summary entity effects).outcome = .ok (last, after) →
    ∃ outcomes, last.outcomes = summary.outcomes ++ outcomes ∧
      Attempts setting entity effects outcomes after := by
  induction effects with
  | nil =>
      intro summary entity hrun
      cases hrun
      exact ⟨[], (List.append_nil _).symm, .nil _⟩
  | cons effect rest ih =>
      intro summary entity hrun
      obtain ⟨outcome, middle, hfirst, hrest⟩ := exists_attempt_of_runEffects hrun
      obtain ⟨later, hlater, hattempts⟩ := ih hrest
      rw [PhaseSummary.outcomes_note, List.append_assoc] at hlater
      exact ⟨outcome :: later, hlater, .cons hfirst hattempts⟩

/-- A run of effects keeps the books of its phase, and the number of effects that it was to try. -/
theorem isTally_of_runEffects {effects : List Effect} : ∀ {summary : PhaseSummary} {entity : Entity},
    (runEffects setting summary entity effects).outcome = .ok (last, after) → summary.IsTally →
    last.IsTally ∧ last.phase = summary.phase ∧ last.total = summary.total := by
  induction effects with
  | nil =>
      intro summary entity hrun htally
      cases hrun
      exact ⟨htally, rfl, rfl⟩
  | cons effect rest ih =>
      intro summary entity hrun htally
      obtain ⟨outcome, middle, hfirst, hrest⟩ := exists_attempt_of_runEffects hrun
      have hlater := ih hrest (htally.note hfirst.effectId)
      rwa [PhaseSummary.phase_note, PhaseSummary.total_note] at hlater

theorem mem_select {effects : List Effect} {owner : EntityRef} {phase : Phase} {effect : Effect} :
    effect ∈ select effects owner phase ↔
      effect ∈ effects ∧ effect.isActive = true ∧ effect.timing = phase ∧ effect.owner = owner := by
  rw [select, (List.mergeSort_perm _ _).mem_iff, List.mem_filter]
  simp only [Bool.and_eq_true, decide_eq_true_eq, and_assoc]

theorem runEffects_of_runPhase {phase : Phase}
    (hrun : (runPhase setting phase entity).outcome = .ok (summary, after)) :
    let selected := select setting.effects entity.ref phase
    (runEffects setting { phase, total := selected.length } entity selected).outcome =
      .ok (summary, after) := by
  rw [runPhase, Recorded.outcome_bind] at hrun
  obtain ⟨⟨last, left⟩, heffects, hrest⟩ := bind_eq_ok.1 hrun
  simp only at hrest
  split at hrest
  all_goals
    cases hrest
    exact heffects

/-- The summary of a phase that comes to an end tells of each effect selected for the phase, and its
counters, errors and order are those of the outcomes. -/
theorem isTally_of_runPhase {phase : Phase}
    (hrun : (runPhase setting phase entity).outcome = .ok (summary, after)) :
    summary.IsTally ∧ summary.phase = phase ∧
      summary.total = (select setting.effects entity.ref phase).length :=
  isTally_of_runEffects (runEffects_of_runPhase hrun) (PhaseSummary.isTally_start _ _)

theorem attempts_of_runPhase {phase : Phase}
    (hrun : (runPhase setting phase entity).outcome = .ok (summary, after)) :
    summary.phase = phase ∧
      Attempts setting entity (select setting.effects entity.ref phase) summary.outcomes after := by
  obtain ⟨outcomes, houtcomes, hattempts⟩ := attempts_of_runEffects (runEffects_of_runPhase hrun)
  rw [List.nil_append] at houtcomes
  exact ⟨(isTally_of_runPhase hrun).2.1, houtcomes ▸ hattempts⟩

theorem executionOrder_of_runPhase {phase : Phase}
    (hrun : (runPhase setting phase entity).outcome = .ok (summary, after)) :
    summary.executionOrder = (select setting.effects entity.ref phase).map (·.id) :=
  (isTally_of_runPhase hrun).1.executionOrder.trans (attempts_of_runPhase hrun).2.effectIds

theorem ref_of_runPhase {phase : Phase}
    (hrun : (runPhase setting phase entity).outcome = .ok (summary, after)) :
    after.ref = entity.ref :=
  (attempts_of_runPhase hrun).2.ref

/-! ### Resolutions -/

/-- The summaries of the phases that a resolution got to. -/
def summaries (r : Resolution) : List PhaseSummary :=
  r.pre.toList ++ r.onResolve.toList ++ r.post.toList

theorem resolve_of_refusal {act : CoreAction} {pre : PhaseSummary} {working : Entity} {e : Error}
    (hpre : (runPhase setting .pre entity).outcome = .ok (pre, working))
    (hact : act working = .error e) :
    (resolve setting act entity).outcome =
      .ok ⟨some (refusalReport e), entity, some pre, none, none⟩ := by
  rw [resolve, Recorded.outcome_bind, hpre]
  simp only [Except.bind, hact]
  rfl

theorem resolve_of_pre_error {act : CoreAction} {e : Error}
    (hpre : (runPhase setting .pre entity).outcome = .error e) :
    (resolve setting act entity).outcome = .error e := by
  rw [resolve, Recorded.outcome_bind, hpre]
  rfl

/-- A resolution gets through its first phase. Then it is refused, or it gets through the others. -/
theorem stages_of_resolve {act : CoreAction} {r : Resolution}
    (hresolve : (resolve setting act entity).outcome = .ok r) :
    ∃ pre working, (runPhase setting .pre entity).outcome = .ok (pre, working) ∧
      ((∃ e, act working = .error e ∧
        r = ⟨some (refusalReport e), entity, some pre, none, none⟩) ∨
      ∃ acted onResolve resolved post last, act working = .ok acted ∧
        (runPhase setting .onResolve acted).outcome = .ok (onResolve, resolved) ∧
        (runPhase setting .post resolved).outcome = .ok (post, last) ∧
        r = ⟨none, last, some pre, some onResolve, some post⟩) := by
  rw [resolve, Recorded.outcome_bind] at hresolve
  obtain ⟨⟨pre, working⟩, hpre, hrest⟩ := bind_eq_ok.1 hresolve
  refine ⟨pre, working, hpre, ?_⟩
  simp only at hrest
  split at hrest
  · rename_i e hact
    cases hrest
    exact .inl ⟨e, hact, rfl⟩
  · rename_i acted hact
    rw [Recorded.outcome_bind] at hrest
    obtain ⟨⟨onResolve, resolved⟩, honResolve, hrest⟩ := bind_eq_ok.1 hrest
    rw [Recorded.outcome_bind] at hrest
    obtain ⟨⟨post, last⟩, hpost, hrest⟩ := bind_eq_ok.1 hrest
    cases hrest
    exact .inr ⟨acted, onResolve, resolved, post, last, hact, honResolve, hpost, rfl⟩

/-- What a resolution that is not refused went through. -/
theorem exists_phases_of_resolve {act : CoreAction} {r : Resolution}
    (hresolve : (resolve setting act entity).outcome = .ok r) (hok : r.failure = none) :
    ∃ pre working acted onResolve resolved post,
      (runPhase setting .pre entity).outcome = .ok (pre, working) ∧ act working = .ok acted ∧
      (runPhase setting .onResolve acted).outcome = .ok (onResolve, resolved) ∧
      (runPhase setting .post resolved).outcome = .ok (post, r.entity) := by
  obtain ⟨pre, working, hpre, ⟨_, _, rfl⟩ |
    ⟨acted, onResolve, resolved, post, last, hact, honResolve, hpost, rfl⟩⟩ :=
    stages_of_resolve hresolve
  · cases hok
  · exact ⟨pre, working, acted, onResolve, resolved, post, hpre, hact, honResolve, hpost⟩

/-- In each of its phases a resolution tries the effects selected for the entity as it is by then. -/
theorem exists_attempts_of_resolve {act : CoreAction} {r : Resolution}
    (hresolve : (resolve setting act entity).outcome = .ok r) :
    ∀ s ∈ r.summaries, ∃ working after,
      Attempts setting working (select setting.effects working.ref s.phase) s.outcomes after := by
  have hphase : ∀ {phase : Phase} {entity after : Entity} {s : PhaseSummary},
      (runPhase setting phase entity).outcome = .ok (s, after) →
      ∃ working after,
        Attempts setting working (select setting.effects working.ref s.phase) s.outcomes after := by
    intro phase entity after s hrun
    obtain ⟨rfl, hattempts⟩ := attempts_of_runPhase hrun
    exact ⟨entity, after, hattempts⟩
  obtain ⟨pre, working, hpre, ⟨_, -, rfl⟩ | ⟨_, onResolve, _, post, _, -, honResolve, hpost, rfl⟩⟩ :=
    stages_of_resolve hresolve
  · exact List.forall_mem_singleton.2 (hphase hpre)
  · exact List.forall_mem_cons.2 ⟨hphase hpre, List.forall_mem_cons.2
      ⟨hphase honResolve, List.forall_mem_singleton.2 (hphase hpost)⟩⟩

end CampaignRules.Resolution
