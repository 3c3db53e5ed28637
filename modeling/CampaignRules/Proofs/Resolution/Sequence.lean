import CampaignRules.Proofs.Failure
import CampaignRules.Proofs.Resolution.Attempt

/-! # Effects one after the other

A phase is a sequence of documents, the first that of the entity as it comes in and the last that of
the entity as it goes out, with one effect between each two of them. What becomes of the effect, and
which document follows, depends on the document before it and on nothing else that happened in the
phase. -/

namespace CampaignRules.Resolution

open Patch

variable {setting : Setting} {entity after : Entity} {effect : Effect}

/-- The effect has a guard, and it is active. -/
def IsGuardedBy (setting : Setting) (effect : Effect) (guard : Condition) : Prop :=
  ∃ id, effect.guardId = some id ∧ setting.guard? id = some guard ∧ guard.isActive

/-- The effect is on a cycle of writes that is refused, its guard is missing, or its guard fails. -/
def IsBarred (setting : Setting) (entity : Entity) (effect : Effect) : Prop :=
  (setting.refuseCyclic ∧ effect.id ∈ setting.cyclic) ∨
  (∃ id, effect.guardId = some id ∧ ∀ guard ∈ setting.conditions, guard.id ≠ id) ∨
  ∃ guard e, IsGuardedBy setting effect guard ∧ guardResult setting entity guard = .error e

/-- The guard of the effect does not hold. -/
def IsHeldBack (setting : Setting) (entity : Entity) (effect : Effect) : Prop :=
  ∃ guard value, IsGuardedBy setting effect guard ∧ guardResult setting entity guard = .ok value ∧
    value.truthy = false

theorem guard?_eq_none_iff {id : Bytes} :
    setting.guard? id = none ↔ ∀ guard ∈ setting.conditions, guard.id ≠ id := by
  simp [Setting.guard?, List.find?_eq_none]

theorem IsGuardedBy.unique {guard other : Condition} (h : IsGuardedBy setting effect guard)
    (h' : IsGuardedBy setting effect other) : guard = other := by
  obtain ⟨id, hid, hguard, -⟩ := h
  obtain ⟨id', hid', hother, -⟩ := h'
  cases hid.symm.trans hid'
  exact Option.some.inj (hguard.symm.trans hother)

/-- An effect the guard of which comes to a value is barred only if it is refused. -/
theorem isBarred_iff_of_guardResult {guard : Condition} {value : Json}
    (hguard : IsGuardedBy setting effect guard) (hvalue : guardResult setting entity guard = .ok value) :
    IsBarred setting entity effect ↔ setting.refuseCyclic ∧ effect.id ∈ setting.cyclic := by
  constructor
  · rintro (hrefused | ⟨id, hid, hmissing⟩ | ⟨other, e, hother, herror⟩)
    · exact hrefused
    · obtain ⟨_, hid', hfound, -⟩ := hguard
      cases hid.symm.trans hid'
      rw [guard?_eq_none_iff.2 hmissing] at hfound
      cases hfound
    · cases hguard.unique hother
      rw [hvalue] at herror
      cases herror
  · exact .inl

theorem isHeldBack_iff_of_guardResult {guard : Condition} {value : Json}
    (hguard : IsGuardedBy setting effect guard) (hvalue : guardResult setting entity guard = .ok value) :
    IsHeldBack setting entity effect ↔ value.truthy = false := by
  constructor
  · rintro ⟨other, found, hother, hfound, hfalse⟩
    cases hguard.unique hother
    cases hvalue.symm.trans hfound
    exact hfalse
  · exact fun hfalse => ⟨guard, value, hguard, hvalue, hfalse⟩

/-- What a verdict says of an effect. -/
def Verdict.Means (setting : Setting) (entity : Entity) (effect : Effect) : Verdict → Prop
  | .fail _ => IsBarred setting entity effect
  | .skip _ => ¬IsBarred setting entity effect ∧ IsHeldBack setting entity effect
  | .go _ => ¬IsBarred setting entity effect ∧ ¬IsHeldBack setting entity effect

/-- An effect that is not refused and has no active guard, nor a missing one, goes. -/
theorem means_go_of_unguarded {guardValue : Json}
    (hrefused : ¬(setting.refuseCyclic ∧ effect.id ∈ setting.cyclic))
    (hfound : ∀ id, effect.guardId = some id → setting.guard? id ≠ none)
    (hunguarded : ∀ guard, ¬IsGuardedBy setting effect guard) :
    (Verdict.go guardValue).Means setting entity effect := by
  constructor
  · rintro (h | ⟨id, hid, hmissing⟩ | ⟨guard, _, hguard, -⟩)
    · exact hrefused h
    · exact hfound id hid (guard?_eq_none_iff.2 hmissing)
    · exact hunguarded guard hguard
  · rintro ⟨guard, _, hguard, -⟩
    exact hunguarded guard hguard

theorem means_of_judgeGuard {guard : Condition} {verdict : Verdict}
    (hrefused : ¬(setting.refuseCyclic ∧ effect.id ∈ setting.cyclic))
    (hguard : IsGuardedBy setting effect guard)
    (hjudge : judgeGuard setting entity guard = .ok verdict) :
    verdict.Means setting entity effect := by
  obtain ⟨_, -, -, hactive⟩ := id hguard
  cases hvalue : guardResult setting entity guard with
  | ok value =>
      have hbarred : ¬IsBarred setting entity effect :=
        mt (isBarred_iff_of_guardResult hguard hvalue).1 hrefused
      have hheld := isHeldBack_iff_of_guardResult hguard hvalue
      rw [judgeGuard_of_ok hactive hvalue] at hjudge
      cases hjudge
      cases htruthy : value.truthy with
      | true => exact ⟨hbarred, mt hheld.1 (by rw [htruthy]; decide)⟩
      | false => exact ⟨hbarred, hheld.2 htruthy⟩
  | error e =>
      rw [judgeGuard_of_error hactive hvalue] at hjudge
      cases hreport : e.report? with
      | none =>
          rw [hreport] at hjudge
          cases hjudge
      | some report =>
          rw [hreport] at hjudge
          cases hjudge
          exact .inr (.inr ⟨guard, e, hguard, hvalue⟩)

theorem means_of_judge {verdict : Verdict} (hjudge : judge setting entity effect = .ok verdict) :
    verdict.Means setting entity effect := by
  unfold judge at hjudge
  split at hjudge
  · rename_i hrefused
    cases hjudge
    rw [Bool.and_eq_true, List.contains_iff_mem] at hrefused
    exact .inl hrefused
  · rename_i hrefused
    rw [Bool.and_eq_true, List.contains_iff_mem] at hrefused
    split at hjudge
    · rename_i hnone
      cases hjudge
      refine means_go_of_unguarded hrefused (fun id hid => ?_) ?_
      · rw [hnone] at hid
        cases hid
      · rintro guard ⟨id, hid, -⟩
        rw [hnone] at hid
        cases hid
    · rename_i id hid
      split at hjudge
      · rename_i hmissing
        cases hjudge
        exact .inr (.inl ⟨id, hid, guard?_eq_none_iff.1 hmissing⟩)
      · rename_i guard hguard
        by_cases hactive : guard.isActive
        · exact means_of_judgeGuard hrefused ⟨id, hid, hguard, hactive⟩ hjudge
        · rw [judgeGuard, if_neg hactive] at hjudge
          cases hjudge
          refine means_go_of_unguarded hrefused (fun id' hid' => ?_) ?_
          · cases hid.symm.trans hid'
            rw [hguard]
            exact Option.some_ne_none guard
          · rintro other ⟨id', hid', hother, hactive'⟩
            cases hid.symm.trans hid'
            cases hguard.symm.trans hother
            exact hactive hactive'

/-- What becomes of an effect on an entity, and the document after it. Whether its patch can be carried
out matters only if it is tried. -/
structure Faithful (setting : Setting) (entity : Entity) (effect : Effect) (outcome : EffectOutcome)
    (after : Json) : Prop where
  effectId : outcome.effectId = effect.id
  barred : IsBarred setting entity effect →
    (∃ report, outcome.fate = .failed report) ∧ after = entity.document
  heldBack : ¬IsBarred setting entity effect → IsHeldBack setting entity effect →
    outcome.fate = .skipped ∧ after = entity.document
  failed : ¬IsBarred setting entity effect → ¬IsHeldBack setting entity effect →
    ∀ e, (apply entity.document effect.payload entity.ref.type).outcome = .error e →
      (∃ report, e.report? = some report ∧ outcome.fate = .failed report) ∧ after = entity.document
  applied : ¬IsBarred setting entity effect → ¬IsHeldBack setting entity effect →
    ∀ applied, (apply entity.document effect.payload entity.ref.type).outcome = .ok applied →
      outcome.fate = .applied applied.diff ∧ after = applied.document

theorem Attempt.faithful {outcome : EffectOutcome}
    (h : Attempt setting entity effect outcome after) :
    Faithful setting entity effect outcome after.document := by
  cases h with
  | refused hjudge =>
      have hbarred : IsBarred setting entity effect := means_of_judge hjudge
      exact ⟨rfl, fun _ => ⟨⟨_, rfl⟩, rfl⟩, (absurd hbarred ·), (absurd hbarred ·), (absurd hbarred ·)⟩
  | skipped hjudge =>
      obtain ⟨hbarred, hheld⟩ := means_of_judge hjudge
      exact ⟨rfl, (absurd · hbarred), fun _ _ => ⟨rfl, rfl⟩, fun _ => (absurd hheld ·),
        fun _ => (absurd hheld ·)⟩
  | failed hjudge happly hreport =>
      obtain ⟨hbarred, hheld⟩ := means_of_judge hjudge
      refine ⟨rfl, (absurd · hbarred), fun _ => (absurd · hheld), fun _ _ e herror => ?_,
        fun _ _ applied hok => ?_⟩
      · cases happly.symm.trans herror
        exact ⟨⟨_, hreport, rfl⟩, rfl⟩
      · cases happly.symm.trans hok
  | applied hjudge happly =>
      obtain ⟨hbarred, hheld⟩ := means_of_judge hjudge
      refine ⟨rfl, (absurd · hbarred), fun _ => (absurd · hheld), fun _ _ e herror => ?_,
        fun _ _ applied hok => ?_⟩
      · cases happly.symm.trans herror
      · cases happly.symm.trans hok
        exact ⟨rfl, rfl⟩

theorem Attempt.eq_setDocument {outcome : EffectOutcome}
    (h : Attempt setting entity effect outcome after) :
    after = { entity with document := after.document } := by
  cases h <;> rfl

/-- The documents lead from one entity to another by way of effects and what became of them. -/
structure Leads (setting : Setting) (entity : Entity) (effects : List Effect)
    (outcomes : List EffectOutcome) (documents : Nat → Json) (after : Entity) : Prop where
  first : documents 0 = entity.document
  last : after = { entity with document := documents effects.length }
  between : ∀ i effect outcome, effects[i]? = some effect → outcomes[i]? = some outcome →
    Faithful setting { entity with document := documents i } effect outcome (documents (i + 1))

theorem Attempts.exists_documents {effects : List Effect} {outcomes : List EffectOutcome}
    (h : Attempts setting entity effects outcomes after) :
    ∃ documents, Leads setting entity effects outcomes documents after := by
  induction h with
  | nil entity =>
      refine ⟨fun _ => entity.document, rfl, rfl, fun i effect outcome heffect _ => ?_⟩
      rw [List.getElem?_nil] at heffect
      cases heffect
  | @cons start middle stop first rest firstOutcome later hfirst _ ih =>
      obtain ⟨documents, hzero, hlast, hbetween⟩ := ih
      rw [hfirst.eq_setDocument] at hlast hbetween
      -- the document at the start comes before those that the other effects lead through
      refine ⟨fun i => i.casesOn start.document documents, rfl, hlast, fun i => ?_⟩
      cases i with
      | zero =>
          intro effect outcome heffect houtcome
          cases heffect
          cases houtcome
          show Faithful setting start _ _ (documents 0)
          rw [hzero]
          exact hfirst.faithful
      | succ i => exact hbetween i

/-- A phase that comes to an end went through its effects one after the other, from the document of
the entity as it came in to that of the entity as it goes out. Each effect is handled by the document
before it: one that is refused, or the guard of which is missing or fails, fails; one the guard of
which does not hold is skipped; and of any other the patch is applied to the document, which is the one
after it if that succeeds. The summary has one outcome for each effect and counts it once, and its
errors are those of the outcomes that failed. -/
theorem phase_is_sequential_fold (setting : Setting) (phase : Phase) (entity after : Entity)
    (summary : PhaseSummary)
    (hrun : (runPhase setting phase entity).outcome = .ok (summary, after)) :
    let selected := select setting.effects entity.ref phase
    (∃ documents, Leads setting entity selected summary.outcomes documents after) ∧
    summary.phase = phase ∧
    summary.total = summary.succeeded + summary.failed + summary.skipped ∧
    summary.total = selected.length ∧ summary.outcomes.length = selected.length ∧
    summary.executionOrder = selected.map (·.id) ∧
    List.Forall₂ (fun error outcome =>
        error.1 = outcome.effectId ∧ outcome.fate = .failed error.2)
      summary.errors (failures summary.outcomes) := by
  intro selected
  obtain ⟨hphase, hattempts⟩ := attempts_of_runPhase hrun
  obtain ⟨htally, -, htotal⟩ := isTally_of_runPhase hrun
  have horder : summary.executionOrder = selected.map (·.id) := executionOrder_of_runPhase hrun
  have hlength : summary.outcomes.length = selected.length := by
    simpa using congrArg List.length hattempts.effectIds
  exact ⟨hattempts.exists_documents, hphase, by rw [htally.sum_eq_length, htotal, hlength], htotal,
    hlength, horder, errors_match_failures htally⟩

/-- Three effects of an encounter in which no alarm was raised: the reinforcements are skipped, the
reward is paid, and the one with a guard that nobody recorded fails. The reward is all that the entity
shows for it. -/
theorem phase_is_sequential_fold_quiet :
    let owner : EntityRef := ⟨EntityRef.encounter, "e1"⟩
    let adds : Bytes → Bytes → Option Bytes → Effect := fun id path guardId =>
      ⟨id, id, owner, .pre, 0, .array [.object [("op", "add"), ("path", .string path),
        ("value", .unsigned 7)]], true, guardId, [], [], []⟩
    let reinforcements := adds "reinforcements" "/variables/guards" (some "alarmed")
    let reward := adds "reward" "/variables/gold" none
    let lost := adds "lost" "/variables/gems" (some "nowhere")
    let alarmed : Condition :=
      ⟨"alarmed", owner.type, none, "alarm", .object [("var", "alarm")], [], 0, true, 1, [], []⟩
    let setting : Setting := ⟨.empty, [reinforcements, reward, lost], [alarmed], [], false, .null⟩
    let entity : Entity := ⟨owner, [], [], .object [("id", "e1"), ("variables", .object [("alarm", false)])]⟩
    ∃ summary after documents, (runPhase setting .pre entity).outcome = .ok (summary, after) ∧
      Leads setting entity [reinforcements, reward, lost] summary.outcomes documents after ∧
      summary.outcomes.map (·.fate.name) = ["SKIPPED", "APPLIED", "FAILED"] ∧
      summary.total = 3 ∧ summary.errors.map (·.1) = [lost.id] ∧
      after.document.equal (.object [("id", "e1"),
        ("variables", .object [("alarm", false), ("gold", .unsigned 7)])]) := by
  intro owner adds reinforcements reward lost alarmed setting entity
  have hselect : select setting.effects entity.ref .pre = [reinforcements, reward, lost] :=
    List.mergeSort_of_pairwise (by decide +kernel)
  obtain ⟨⟨summary, after⟩, hrun, hresult⟩ := exists_ok_of_any
    (runPhase setting .pre entity).outcome
    (fun result => result.1.outcomes.map (·.fate.name) = ["SKIPPED", "APPLIED", "FAILED"] &&
      result.1.errors.map (·.1) = [lost.id] && result.2.document.equal (.object [("id", "e1"),
        ("variables", .object [("alarm", false), ("gold", .unsigned 7)])]))
    (by rw [runPhase, hselect]; decide +kernel)
  simp only [Bool.and_eq_true, decide_eq_true_eq] at hresult
  obtain ⟨⟨hfates, herrors⟩, hdocument⟩ := hresult
  obtain ⟨⟨documents, hleads⟩, -, -, htotal, -⟩ :=
    phase_is_sequential_fold setting .pre entity after summary hrun
  rw [hselect] at hleads htotal
  exact ⟨summary, after, documents, hrun, hleads, hfates, htotal, herrors, hdocument⟩

end CampaignRules.Resolution
