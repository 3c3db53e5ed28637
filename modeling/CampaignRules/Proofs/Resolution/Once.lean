import CampaignRules.Proofs.Resolution.Failure
import CampaignRules.Proofs.Resolution.Protection

/-! # One resolution for an entity

A core action refuses an entity whose flag says that it was resolved before. The flag is a field like
others: it is looked at after the first phase, and effects of any phase may change it. As long as none
does, a flag that is set stays set through all phases, so that the entity is resolved at most once. -/

namespace CampaignRules.Patch

/-- No operation of the patch changes anything in the field. -/
def leaves (field : Bytes) (payload : Json) : Bool :=
  (operationsOf payload).all fun operation =>
    operation.changedPlaces.all fun place => topField place ≠ field

theorem keeps_apply_of_leaves {field entityType : Bytes} {document payload : Json} {applied : Applied}
    (hobject : document.isObject) (hleaves : leaves field payload)
    (happly : (apply document payload entityType).outcome = .ok applied) :
    Keeps field document applied.document := by
  obtain ⟨operations, hread, hfaults, hrun⟩ := exists_operations happly
  simp only [leaves, operationsOf_eq hread, List.all_eq_true, decide_eq_true_eq] at hleaves
  refine keeps_applyFrom (fun operation hmem place hplace => ?_) hobject hrun
  have hfault := hfaults operation hmem place (operation.changedPlaces_subset hplace)
  exact ⟨(pathFault?_eq_none_iff.1 hfault).1.1, hleaves operation hmem place hplace⟩

end CampaignRules.Patch

namespace CampaignRules.Resolution

open Patch

variable {setting : Setting} {entity after : Entity}

/-- The core actions that entities go through once. -/
inductive OneTimeAction where
  | resolveEncounter
  | completeEvent

namespace OneTimeAction

def run : OneTimeAction → Moment → CoreAction
  | .resolveEncounter => CoreAction.resolveEncounter
  | .completeEvent => CoreAction.completeEvent

/-- The field that tells that the action was done. -/
def flag : OneTimeAction → String
  | .resolveEncounter => "isResolved"
  | .completeEvent => "isCompleted"

def fault : OneTimeAction → Bytes → ResolutionFault
  | .resolveEncounter => .alreadyResolved
  | .completeEvent => .alreadyCompleted

end OneTimeAction

variable {action : OneTimeAction} {now : Moment} {flag : String}

theorem isObject_of_isSet {document : Json} (hset : CoreAction.isSet flag document) :
    document.isObject := by
  cases document with
  | object members => rfl
  | _ => cases hset

theorem isSet_congr {document other : Json} (hget : other.get? flag = document.get? flag)
    (hset : CoreAction.isSet flag document) : CoreAction.isSet flag other := by
  rwa [CoreAction.isSet, hget]

theorem isSet_set {document : Json} (hobject : document.isObject) :
    CoreAction.isSet flag (document.set flag (.bool true)) := by
  rw [CoreAction.isSet, Json.get?_set_self hobject]
  rfl

theorem get?_bumpVersion {field : Bytes} (hne : field ≠ "version") (document : Json) :
    (CoreAction.bumpVersion document).get? field = document.get? field := by
  unfold CoreAction.bumpVersion
  split
  · split
    · exact Json.get?_set_ne hne _ _
    · rfl
  · rfl

/-- An entity that has the flag set is refused. -/
theorem run_of_isSet (hset : CoreAction.isSet action.flag entity.document) :
    action.run now entity = .error (.resolutionFailed (action.fault entity.ref.id)) := by
  have hobject := isObject_of_isSet hset
  have hrequire : CoreAction.requireObject entity.document = .ok () := if_pos hobject
  cases action with
  | resolveEncounter =>
      have hflag : CoreAction.isSet "isResolved" entity.document := hset
      simp only [OneTimeAction.run, CoreAction.resolveEncounter, hrequire, hflag, if_true]
      rfl
  | completeEvent =>
      have hflag : CoreAction.isSet "isCompleted" entity.document := hset
      simp only [OneTimeAction.run, CoreAction.completeEvent, hrequire, hflag, if_true]
      rfl

/-- An entity that is not refused has the flag set from then on. -/
theorem isSet_of_run (hrun : action.run now entity = .ok after) :
    after.ref = entity.ref ∧ CoreAction.isSet action.flag after.document := by
  cases action with
  | resolveEncounter =>
      obtain ⟨_, hrequire, hrest⟩ := bind_eq_ok.1 hrun
      have hobject := isObject_of_requireObject hrequire
      split at hrest
      · cases hrest
      · cases hrest
        refine ⟨rfl, isSet_congr ?_ (isSet_set hobject)⟩
        rw [get?_bumpVersion (by decide), Json.get?_set_ne (by decide)]
        rfl
  | completeEvent =>
      obtain ⟨_, hrequire, hrest⟩ := bind_eq_ok.1 hrun
      have hobject := isObject_of_requireObject hrequire
      split at hrest
      · cases hrest
      · cases hrest
        refine ⟨rfl, isSet_congr ?_ (isSet_set hobject)⟩
        rw [get?_bumpVersion (by decide)]
        split
        · rw [Json.get?_set_ne (by decide)]
          rfl
        · rw [Json.get?_set_ne (by decide)]
          rfl
        · rfl

/-- No effect that is selected for the phase changes anything in the field. -/
def Spares (field : Bytes) (setting : Setting) (owner : EntityRef) (phase : Phase) : Prop :=
  ∀ effect ∈ select setting.effects owner phase, leaves field effect.payload

/-- A phase that spares a flag leaves it set. -/
theorem isSet_of_runPhase {phase : Phase} {summary : PhaseSummary}
    (hrun : (runPhase setting phase entity).outcome = .ok (summary, after))
    (hset : CoreAction.isSet flag entity.document) (hspares : Spares flag setting entity.ref phase) :
    CoreAction.isSet flag after.document := by
  have hkeeps := (attempts_of_runPhase hrun).2.keeps (isObject_of_isSet hset)
    fun effect hmem _ _ hobject happly => keeps_apply_of_leaves hobject (hspares effect hmem) happly
  exact isSet_congr hkeeps.2 hset

/-- The resolution is refused because of the flag, and the entity stays what it was. Only a patch with
an oversized position can keep it from getting to the refusal. -/
def Refused (action : OneTimeAction) (now : Moment) (setting : Setting) (entity : Entity) : Prop :=
  (∃ r, (resolve setting (action.run now) entity).outcome = .ok r ∧ r.entity = entity ∧
    r.failure = some (refusalReport (.resolutionFailed (action.fault entity.ref.id)))) ∨
  ((resolve setting (action.run now) entity).outcome = .error .oversizedIndex ∧
    ∃ effect ∈ select setting.effects entity.ref .pre, fitsWords effect.payload = false)

theorem refused_of_isSet (hset : CoreAction.isSet action.flag entity.document)
    (hspares : Spares action.flag setting entity.ref .pre) : Refused action now setting entity := by
  rcases (escapes_runPhase setting .pre entity).exists_ok_or with
    ⟨⟨pre, working⟩, hpre⟩ | ⟨e, hpre, effect, hmem, rfl, hwide⟩
  · have hworking := isSet_of_runPhase hpre hset hspares
    refine .inl ⟨_, resolve_of_refusal hpre (run_of_isSet hworking), rfl, ?_⟩
    rw [ref_of_runPhase hpre]
  · exact .inr ⟨resolve_of_pre_error hpre, effect, hmem, hwide⟩

/-- A resolution that is not refused leaves the flag set if the later phases spare it. -/
theorem isSet_of_resolve {r : Resolution}
    (hresolve : (resolve setting (action.run now) entity).outcome = .ok r) (hok : r.failure = none)
    (honResolve : Spares action.flag setting entity.ref .onResolve)
    (hpost : Spares action.flag setting entity.ref .post) :
    r.entity.ref = entity.ref ∧ CoreAction.isSet action.flag r.entity.document := by
  obtain ⟨_, working, acted, _, resolved, _, hpreRun, hact, hmiddleRun, hpostRun⟩ :=
    exists_phases_of_resolve hresolve hok
  obtain ⟨href, hset⟩ := isSet_of_run hact
  have hacted : acted.ref = entity.ref := href.trans (ref_of_runPhase hpreRun)
  have hresolved : resolved.ref = entity.ref := (ref_of_runPhase hmiddleRun).trans hacted
  refine ⟨(ref_of_runPhase hpostRun).trans hresolved, ?_⟩
  have hmiddle := isSet_of_runPhase hmiddleRun hset (hacted ▸ honResolve)
  exact isSet_of_runPhase hpostRun hmiddle (hresolved ▸ hpost)

/-- An encounter or an event that has its flag set is refused if no effect of the first phase changes
the flag. A resolution that is not refused sets the flag, and if no effect of the later phases changes
it, the entity is refused from then on, by any later resolution with such a first phase. -/
theorem resolved_at_most_once (action : OneTimeAction) (now : Moment) (setting : Setting)
    (entity : Entity) :
    (CoreAction.isSet action.flag entity.document → Spares action.flag setting entity.ref .pre →
      Refused action now setting entity) ∧
    ∀ r, (resolve setting (action.run now) entity).outcome = .ok r → r.failure = none →
      Spares action.flag setting entity.ref .onResolve →
      Spares action.flag setting entity.ref .post →
      ∀ later next, Spares action.flag next entity.ref .pre → Refused action later next r.entity := by
  refine ⟨refused_of_isSet, fun r hresolve hok honResolve hpost later next hnext => ?_⟩
  obtain ⟨href, hset⟩ := isSet_of_resolve hresolve hok honResolve hpost
  exact refused_of_isSet hset (href ▸ hnext)

/-- Gold is added before and after an encounter is resolved. A second resolution is refused although
its first phase could add more. -/
theorem resolved_at_most_once_gold :
    let owner : EntityRef := ⟨EntityRef.encounter, "e1"⟩
    let reward : Phase → Effect := fun phase => ⟨"reward", "reward", owner, phase, 0,
      .array [.object [("op", "add"), ("path", "/gold"), ("value", .unsigned 7)]], true, none, [], [], []⟩
    let setting : Setting := ⟨.empty, [reward .pre, reward .post], [], [], false, .null⟩
    let next : Setting := ⟨.empty, [reward .pre], [], [], true, .null⟩
    let entity : Entity := ⟨owner, [], [], .object [("id", "e1")]⟩
    ∃ r, (resolve setting (OneTimeAction.resolveEncounter.run ⟨0⟩) entity).outcome = .ok r ∧
      r.failure = none ∧ r.entity.document.hasKey "gold" ∧
      CoreAction.isSet "isResolved" r.entity.document ∧
      Refused .resolveEncounter ⟨1⟩ next r.entity ∧ Refused .resolveEncounter ⟨2⟩ setting r.entity := by
  intro owner reward setting next entity
  obtain ⟨r, hresolve, hr⟩ := exists_ok_of_any
    (resolve setting (OneTimeAction.resolveEncounter.run ⟨0⟩) entity).outcome
    (fun r => r.failure.isNone && r.entity.document.hasKey "gold" && r.entity.ref = owner &&
      CoreAction.isSet "isResolved" r.entity.document) (by decide +kernel)
  simp only [Bool.and_eq_true, Option.isNone_iff_eq_none, decide_eq_true_eq] at hr
  obtain ⟨⟨⟨hok, hgold⟩, href⟩, hset⟩ := hr
  have hnext := (resolved_at_most_once .resolveEncounter ⟨0⟩ setting entity).2 r hresolve hok
    (by unfold Spares; decide +kernel) (by unfold Spares; decide +kernel) ⟨1⟩ next
    (by unfold Spares; decide +kernel)
  have hsame := (resolved_at_most_once .resolveEncounter ⟨2⟩ setting r.entity).1 hset
    (by rw [href]; unfold Spares; decide +kernel)
  exact ⟨r, hresolve, hok, hgold, hset, hnext, hsame⟩

/-- An effect of the first phase takes the flag back, and an encounter that was resolved is resolved
again. An effect of the last phase does the same for the next resolution. -/
theorem resolved_again :
    let owner : EntityRef := ⟨EntityRef.encounter, "e1"⟩
    let reopen : Phase → Effect := fun phase => ⟨"reopen", "reopen", owner, phase, 0,
      .array [.object [("op", "replace"), ("path", "/isResolved"), ("value", .bool false)]], true, none,
      [], [], []⟩
    let before : Setting := ⟨.empty, [reopen .pre], [], [], false, .null⟩
    let last : Setting := ⟨.empty, [reopen .post], [], [], false, .null⟩
    let act := OneTimeAction.resolveEncounter.run ⟨0⟩
    let resolved : Entity := ⟨owner, [], [], .object [("id", "e1"), ("isResolved", true)]⟩
    let fresh : Entity := ⟨owner, [], [], .object [("id", "e1")]⟩
    CoreAction.isSet "isResolved" resolved.document ∧
      (∃ r, (resolve before act resolved).outcome = .ok r ∧ r.failure = none) ∧
      ∃ r again, (resolve last act fresh).outcome = .ok r ∧ r.failure = none ∧
        (resolve last act r.entity).outcome = .ok again ∧ again.failure = none := by
  intro owner reopen before last act resolved fresh
  have hfirst := exists_ok_of_any (resolve before act resolved).outcome (·.failure.isNone)
    (by decide +kernel)
  have hlast := exists_ok_of_any (resolve last act fresh).outcome
    (fun r => r.failure.isNone &&
      (resolve last act r.entity).outcome.toOption.any (·.failure.isNone)) (by decide +kernel)
  simp only [Bool.and_eq_true, Option.isNone_iff_eq_none] at hfirst hlast
  obtain ⟨r, hresolve, hok, hagain⟩ := hlast
  obtain ⟨again, hresolveAgain, hokAgain⟩ := exists_ok_of_any _ _ hagain
  exact ⟨by decide, hfirst, r, again, hresolve, hok, hresolveAgain,
    Option.isNone_iff_eq_none.1 hokAgain⟩

end CampaignRules.Resolution
