import Mathlib.Algebra.Group.Int.Defs
import CampaignRules.Proofs.Patch.Protection
import CampaignRules.Proofs.Resolution.Attempt

/-! # Protected fields and resolutions

Effects change an entity through patches only, so no phase touches a protected field. The core
actions set fields of their own and count the version up. -/

namespace CampaignRules.Resolution

open Patch

/-- The fields of entities of a type that no effect may touch. -/
def protectedIn (type : Bytes) : List Bytes :=
  protectedFields ++ protectedFieldsFor type

/-- The same entity, with the same values in all protected fields. -/
structure Untouched (entity after : Entity) : Prop where
  ref : after.ref = entity.ref
  keeps : ∀ field ∈ protectedIn entity.ref.type, Keeps field entity.document after.document

variable {setting : Setting} {entity middle after : Entity}

theorem Untouched.trans (h : Untouched entity middle) (h' : Untouched middle after) :
    Untouched entity after :=
  ⟨h'.ref.trans h.ref, fun field hfield => (h.keeps field hfield).trans
    (h'.keeps field (h.ref ▸ hfield))⟩

theorem Untouched.isObject (h : Untouched entity after) : after.document.isObject :=
  (h.keeps "id" List.mem_cons_self).1

/-- Effects keep a field if their patches do. -/
theorem Attempts.keeps {field : Bytes} {effects : List Effect} {outcomes : List EffectOutcome}
    (h : Attempts setting entity effects outcomes after) (hobject : entity.document.isObject)
    (hpatch : ∀ effect ∈ effects, ∀ document applied, document.isObject →
      (apply document effect.payload entity.ref.type).outcome = .ok applied →
      Keeps field document applied.document) :
    Keeps field entity.document after.document :=
  h.preserves (.refl hobject) fun effect hmem _ document applied hkept happly =>
    hkept.trans (hpatch effect hmem document applied hkept.1 happly)

theorem untouched_runPhase {phase : Phase} {summary : PhaseSummary}
    (hobject : entity.document.isObject)
    (hrun : (runPhase setting phase entity).outcome = .ok (summary, after)) :
    Untouched entity after := by
  have hattempts := (attempts_of_runPhase hrun).2
  refine ⟨hattempts.ref, fun field hfield => hattempts.keeps hobject ?_⟩
  exact fun _ _ _ _ hdocument happly => keeps_apply hdocument hfield happly

/-- The fields that the core actions set, apart from the version. -/
def actionFields : List Bytes :=
  ["isResolved", "resolvedAt", "isCompleted", "occurredAt"]

/-- The value of a whole number. -/
def wholeValue? : Json → Option Int
  | .unsigned n => some n.toNat
  | .signed n => some n.toInt
  | _ => none

/-- A whole number is counted up, and any other value is left. -/
def countedUp (version : Json) : Json :=
  match version.toInt64? with
  | some n => .signed (n + 1)
  | none => version

theorem toInt_add_one {n : Int64} (hlt : n.toInt < 2 ^ 63 - 1) : (n + 1).toInt = n.toInt + 1 := by
  have hle := n.le_toInt
  rw [Int64.toInt_add, Int64.toInt_one, Int.bmod_def]
  omega

theorem toInt_toInt64 {n : UInt64} (hlt : (n.toNat : Int) < 2 ^ 63 - 1) : n.toInt64.toInt = n.toNat := by
  rw [← Int64.toInt_toBitVec, UInt64.toBitVec_toInt64, BitVec.toInt_eq_toNat_bmod,
    UInt64.toNat_toBitVec, Int.bmod_def]
  omega

theorem countedUp_of_whole {version : Json} {n : Int} (hwhole : wholeValue? version = some n)
    (hlt : n < 2 ^ 63 - 1) : wholeValue? (countedUp version) = some (n + 1) := by
  cases version with
  | unsigned m =>
      cases hwhole
      have hcast := toInt_toInt64 hlt
      show some (m.toInt64 + 1).toInt = some ((m.toNat : Int) + 1)
      rw [toInt_add_one (hcast ▸ hlt), hcast]
  | signed m =>
      cases hwhole
      exact congrArg some (toInt_add_one hlt)
  | _ => cases hwhole

theorem countedUp_of_not_whole {version : Json} (hwhole : wholeValue? version = none) :
    countedUp version = version := by
  cases version with
  | unsigned n | signed n => cases hwhole
  | _ => rfl

/-- What a core action does to a document. -/
structure Acted (document after : Json) : Prop where
  isObject : after.isObject
  keeps : ∀ field, field ∉ actionFields → field ≠ "version" → after.get? field = document.get? field
  version : after.get? "version" = (document.get? "version").map countedUp

variable {before document : Json}

theorem acted_bumpVersion (hobject : document.isObject)
    (hkeeps : ∀ field, field ∉ actionFields → document.get? field = before.get? field) :
    Acted before (CoreAction.bumpVersion document) := by
  have hversion := hkeeps "version" (by decide)
  rw [CoreAction.bumpVersion]
  cases hheld : document.get? "version" with
  | none =>
      exact ⟨hobject, fun field hfield _ => hkeeps field hfield, by rw [← hversion, hheld]; rfl⟩
  | some version =>
      cases hnumber : version.toInt64? with
      | none =>
          refine ⟨by simpa [hnumber] using hobject, fun field hfield _ => ?_, ?_⟩
          · simpa [hnumber] using hkeeps field hfield
          · simp [hnumber, ← hversion, hheld, countedUp]
      | some n =>
          refine ⟨by simpa [hnumber] using hobject, fun field hfield hne => ?_, ?_⟩
          · simpa [hnumber, Json.get?_set_ne hne] using hkeeps field hfield
          · simp [hnumber, ← hversion, hheld, countedUp, Json.get?_set_self hobject]

theorem isObject_of_requireObject {done : Unit}
    (hrequire : CoreAction.requireObject document = .ok done) : document.isObject := by
  rw [CoreAction.requireObject] at hrequire
  split at hrequire
  · assumption
  · cases hrequire

theorem acted_resolveEncounter {now : Moment}
    (haction : CoreAction.resolveEncounter now entity = .ok after) :
    after.ref = entity.ref ∧ Acted entity.document after.document := by
  obtain ⟨_, hrequire, hrest⟩ := bind_eq_ok.1 haction
  have hobject := isObject_of_requireObject hrequire
  split at hrest
  · cases hrest
  · cases hrest
    refine ⟨rfl, acted_bumpVersion (by simpa using hobject) fun field hfield => ?_⟩
    simp only [actionFields, List.mem_cons, not_or] at hfield
    rw [Json.get?_set_ne hfield.2.1, Json.get?_set_ne hfield.1]

theorem acted_completeEvent {now : Moment}
    (haction : CoreAction.completeEvent now entity = .ok after) :
    after.ref = entity.ref ∧ Acted entity.document after.document := by
  obtain ⟨_, hrequire, hrest⟩ := bind_eq_ok.1 haction
  have hobject := isObject_of_requireObject hrequire
  split at hrest
  · cases hrest
  · cases hrest
    refine ⟨rfl, acted_bumpVersion ?_ fun field hfield => ?_⟩
    · split <;> simpa using hobject
    · simp only [actionFields, List.mem_cons, not_or] at hfield
      split
      · rw [Json.get?_set_ne hfield.2.2.2.1, Json.get?_set_ne hfield.2.2.1]
      · rw [Json.get?_set_ne hfield.2.2.2.1, Json.get?_set_ne hfield.2.2.1]
      · rw [Json.get?_set_ne hfield.2.2.1]

theorem not_mem_actionFields {type field : Bytes} (hfield : field ∈ protectedIn type) :
    field ∉ actionFields := by
  suffices h : ∀ field ∈ protectedIn type, field ∉ actionFields from h field hfield
  rw [protectedIn, protectedFieldsFor]
  repeat' split
  all_goals decide

/-- The version of a document, counted up if it is a whole number that can be counted up, and left
if it is missing or no whole number. -/
def VersionCounted (document after : Json) : Prop :=
  (∀ version n, document.get? "version" = some version → wholeValue? version = some n →
    n < 2 ^ 63 - 1 → (after.get? "version").bind wholeValue? = some (n + 1)) ∧
  ((document.get? "version").bind wholeValue? = none → after.get? "version" = document.get? "version")

theorem versionCounted {document after : Json}
    (hversion : after.get? "version" = (document.get? "version").map countedUp) :
    VersionCounted document after := by
  rw [VersionCounted, hversion]
  cases document.get? "version" with
  | none => simp
  | some version =>
      constructor
      · rintro _ n heq hwhole hlt
        cases heq
        exact countedUp_of_whole hwhole hlt
      · exact fun hwhole => congrArg some (countedUp_of_not_whole hwhole)

theorem acted_resolve {action : CoreAction} {r : Resolution} (hobject : entity.document.isObject)
    (hacts : ∀ entity after, action entity = .ok after →
      after.ref = entity.ref ∧ Acted entity.document after.document)
    (hresolve : (resolve setting action entity).outcome = .ok r) (hok : r.failure = none) :
    (∀ field ∈ protectedIn entity.ref.type, field ≠ "version" →
      r.entity.document.get? field = entity.document.get? field) ∧
    VersionCounted entity.document r.entity.document := by
  obtain ⟨_, working, acted, _, resolved, _, hpre, haction, honResolve, hpost⟩ :=
    exists_phases_of_resolve hresolve hok
  have hworking := untouched_runPhase hobject hpre
  obtain ⟨href, hacted⟩ := hacts working acted haction
  have hresolved := untouched_runPhase hacted.isObject honResolve
  have hlast := hresolved.trans (untouched_runPhase hresolved.isObject hpost)
  have htype : acted.ref.type = entity.ref.type := by rw [href, hworking.ref]
  have hafter : ∀ field ∈ protectedIn entity.ref.type,
      r.entity.document.get? field = acted.document.get? field := fun field hfield =>
    (hlast.keeps field (htype ▸ hfield)).2
  constructor
  · intro field hfield hne
    calc r.entity.document.get? field = acted.document.get? field := hafter field hfield
      _ = working.document.get? field := hacted.keeps field (not_mem_actionFields hfield) hne
      _ = entity.document.get? field := (hworking.keeps field hfield).2
  · have hmem : Bytes.ofString "version" ∈ protectedIn entity.ref.type :=
      List.mem_append_left _ (by decide)
    refine versionCounted ?_
    rw [hafter _ hmem, hacted.version, (hworking.keeps _ hmem).2]

/-- Whatever the effects are, no phase touches a protected field; and a resolution of an encounter or
an event touches none but the version, which the core action counts up. -/
theorem protected_fields_kept (setting : Setting) (now : Moment) (entity : Entity)
    (hobject : entity.document.isObject) :
    (∀ phase summary after, (runPhase setting phase entity).outcome = .ok (summary, after) →
      ∀ field ∈ protectedFields ++ protectedFieldsFor entity.ref.type,
        after.document.get? field = entity.document.get? field) ∧
    ∀ action ∈ [CoreAction.resolveEncounter now, CoreAction.completeEvent now], ∀ r,
      (resolve setting action entity).outcome = .ok r → r.failure = none →
      (∀ field ∈ protectedFields ++ protectedFieldsFor entity.ref.type, field ≠ "version" →
        r.entity.document.get? field = entity.document.get? field) ∧
      VersionCounted entity.document r.entity.document := by
  constructor
  · intro phase summary after hrun field hfield
    exact ((untouched_runPhase hobject hrun).keeps field hfield).2
  · intro action haction r hresolve hok
    refine acted_resolve hobject (fun working acted hacted => ?_) hresolve hok
    simp only [List.mem_cons, List.not_mem_nil, or_false] at haction
    rcases haction with rfl | rfl
    · exact acted_resolveEncounter hacted
    · exact acted_completeEvent hacted

/-- Of two effects the one that would rename the encounter fails, and the other adds gold. -/
theorem protected_fields_kept_hoard :
    let owner : EntityRef := ⟨EntityRef.encounter, "e1"⟩
    let rename : Effect := ⟨"rename", "rename", owner, .pre, 0,
      .array [.object [("op", "replace"), ("path", "/id"), ("value", "e2")]], true, none, [], [], []⟩
    let reward : Effect := ⟨"reward", "reward", owner, .post, 0,
      .array [.object [("op", "add"), ("path", "/gold"), ("value", .unsigned 7)]], true, none, [], [], []⟩
    let setting : Setting := ⟨.empty, [rename, reward], [], [], false, .null⟩
    let entity : Entity := ⟨owner, [], [], .object [("id", "e1"), ("version", .unsigned 4)]⟩
    ∃ r, (resolve setting (CoreAction.resolveEncounter ⟨0⟩) entity).outcome = .ok r ∧
      r.failure = none ∧ r.entity.document.hasKey "gold" ∧
      r.entity.document.get? "id" = some "e1" ∧
      (r.entity.document.get? "version").bind wholeValue? = some 5 := by
  intro owner rename reward setting entity
  have hrun : (resolve setting (CoreAction.resolveEncounter ⟨0⟩) entity).outcome.toOption.map
      (fun r => (r.failure.isNone, r.entity.document.hasKey "gold")) = some (true, true) := by
    decide +kernel
  cases hresolve : (resolve setting (CoreAction.resolveEncounter ⟨0⟩) entity).outcome with
  | error e => simp [hresolve, Except.toOption] at hrun
  | ok r =>
      simp only [hresolve, Except.toOption, Option.map_some, Option.some.injEq, Prod.mk.injEq,
        Option.isNone_iff_eq_none] at hrun
      have h := (protected_fields_kept setting ⟨0⟩ entity rfl).2 _ List.mem_cons_self r hresolve hrun.1
      refine ⟨r, rfl, hrun.1, hrun.2, ?_, ?_⟩
      · exact h.1 "id" (by decide) (by decide)
      · exact h.2.1 (.unsigned 4) 4 rfl rfl (by decide)

end CampaignRules.Resolution
