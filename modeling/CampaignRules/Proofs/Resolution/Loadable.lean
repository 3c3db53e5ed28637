import CampaignRules.Proofs.Patch.Fields
import CampaignRules.Proofs.Record.Entity
import CampaignRules.Proofs.Resolution.Once
import CampaignRules.Proofs.Resolution.Stages

/-! # Records after a resolution

The shape of a record is looked at when it is read, and not again. Most of its fields are not
protected, so effects may put into them what cannot be read: variables that are no object, a branch
that is no text, another type. Nothing else spoils a record: what effects do further inside a field is
harmless, and so are the core actions. -/

namespace CampaignRules

open Patch

namespace Slot

theorem ignoresContents_isObject : IgnoresContents IsObject := by
  rintro v w (⟨-, hw⟩ | ⟨hv, -⟩) ⟨members, heq⟩
  · cases w with
    | object members => exact ⟨members, rfl⟩
    | _ => cases hw
  · cases heq
    cases hv

/-- What holds of no container ignores the contents of containers. -/
theorem ignoresContents_of_not_container {allowed : Option Json → Prop}
    (hscalar : ∀ v, v.isContainer → ¬ allowed (some v)) : IgnoresContents allowed := by
  rintro v w (⟨hv, -⟩ | ⟨hv, -⟩) hallowed
  · exact absurd hallowed (hscalar v (by simp [Json.isContainer, hv]))
  · exact absurd hallowed (hscalar v (by simp [Json.isContainer, hv]))

theorem ignoresContents_isText (text : Bytes) : IgnoresContents (IsText text) := by
  refine ignoresContents_of_not_container fun v hv htext => ?_
  cases htext
  cases hv

theorem ignoresContents_isOptionalText : IgnoresContents IsOptionalText := by
  refine ignoresContents_of_not_container fun v hv hoptional => ?_
  rcases hoptional with hnone | hnull | ⟨text, htext⟩
  · cases hnone
  · cases hnull
    cases hv
  · cases htext
    cases hv

theorem ignoresContents_hasNoOtherText (text : Bytes) : IgnoresContents (HasNoOtherText text) := by
  rintro v w hsame - other ⟨⟩
  rcases hsame with ⟨-, hw⟩ | ⟨-, hw⟩
  · cases hw
  · cases hw

end Slot

namespace Resolution

open Entity

variable {setting : Setting} {entity after : Entity} {allowed : Option Json → Prop} {field : Bytes}
  {action : OneTimeAction} {now : Moment} {r : Resolution}

/-- A phase reports that an effect with the id was applied. -/
def applies (r : Resolution) (id : Bytes) : Bool :=
  r.summaries.any fun s => s.outcomes.any fun o => o.effectId = id && o.fate.isApplied

/-- The effects of an entity that a resolution of it applied. -/
def appliedEffects (setting : Setting) (ref : EntityRef) (r : Resolution) : List Effect :=
  (owned (fun _ => ref) setting.effects).filter fun effect => r.applies effect.id

/-- Whatever the effects put into the field as a whole is allowed there. -/
def PutOnly (allowed : Option Json → Prop) (field : Bytes) (effects : List Effect) : Prop :=
  ∀ effect ∈ effects, PutsOnly allowed field effect.payload

/-- The type can still be read: it stays in one of the two fields, and the other one holds nothing
that comes before it. -/
inductive KeepType (type : Bytes) (document : Json) (effects : List Effect) : Prop where
  | first (hheld : Slot.IsText type (document.get? "entityType"))
      (hputs : PutOnly (Slot.IsText type) "entityType" effects)
  | second (hheld : Slot.IsText type (document.get? "type"))
      (hputs : PutOnly (Slot.IsText type) "type" effects)
      (hother : PutOnly (Slot.HasNoOtherText type) "entityType" effects)

theorem mem_owned_of_mem_select {ref : EntityRef} {phase : Phase} {effect : Effect}
    (hmem : effect ∈ select setting.effects ref phase) :
    effect ∈ owned (fun _ => ref) setting.effects :=
  (List.mem_filter.1 ((select_perm setting.effects (fun _ => ref) phase).mem_iff.1 hmem)).1

theorem holds_runPhase {phase : Phase} {summary : PhaseSummary}
    (hrun : (runPhase setting phase entity).outcome = .ok (summary, after))
    (hholds : Holds allowed field entity.document) (hcontents : IgnoresContents allowed)
    (hsummary : summary ∈ r.summaries)
    (hputs : PutOnly allowed field (appliedEffects setting entity.ref r)) :
    Holds allowed field after.document := by
  refine (attempts_of_runPhase hrun).2.preserves hholds fun effect hmem happlied _ _ hkept happly => ?_
  obtain ⟨o, ho, hid, hfate⟩ := happlied
  have happlies : r.applies effect.id := by
    simp only [applies, List.any_eq_true, Bool.and_eq_true, decide_eq_true_eq]
    exact ⟨summary, hsummary, o, ho, hid, hfate⟩
  refine hkept.of_apply hcontents (hputs effect ?_) happly
  exact List.mem_filter.2 ⟨mem_owned_of_mem_select hmem, happlies⟩

theorem acted_run (hrun : action.run now entity = .ok after) :
    after.ref = entity.ref ∧ Acted entity.document after.document := by
  cases action with
  | resolveEncounter => exact acted_resolveEncounter hrun
  | completeEvent => exact acted_completeEvent hrun

/-- In a field that the core actions leave alone there is what is allowed in the end, if that was so in
the beginning and the effects that are applied put nothing else there. -/
theorem holds_resolve (hholds : Holds allowed field entity.document)
    (hcontents : IgnoresContents allowed) (hfield : field ∉ actionFields) (hversion : field ≠ "version")
    (hresolve : (resolve setting (action.run now) entity).outcome = .ok r) (hok : r.failure = none)
    (hputs : PutOnly allowed field (appliedEffects setting entity.ref r)) :
    Holds allowed field r.entity.document := by
  obtain ⟨pre, working, hpre, ⟨_, _, rfl⟩ |
    ⟨acted, onResolve, resolved, post, last, hact, honResolve, hpost, rfl⟩⟩ :=
    stages_of_resolve hresolve
  · cases hok
  · have hworking := holds_runPhase hpre hholds hcontents List.mem_cons_self hputs
    obtain ⟨href, hacted⟩ := acted_run hact
    have hactedHolds : Holds allowed field acted.document :=
      ⟨hacted.isObject, by rw [hacted.keeps field hfield hversion]; exact hworking.2⟩
    -- the entity keeps its reference, so the effects of the later phases are its effects too
    rw [← ref_of_runPhase hpre, ← href] at hputs
    have hresolved := holds_runPhase honResolve hactedHolds hcontents
      (List.mem_cons_of_mem _ List.mem_cons_self) hputs
    rw [← ref_of_runPhase honResolve] at hputs
    exact holds_runPhase hpost hresolved hcontents
      (List.mem_cons_of_mem _ (List.mem_cons_of_mem _ List.mem_cons_self)) hputs

theorem typeOf_resolve {type : Bytes} (hobject : entity.document.isObject)
    (htype : typeOf entity.document = .ok type)
    (hresolve : (resolve setting (action.run now) entity).outcome = .ok r) (hok : r.failure = none)
    (hkeep : KeepType type entity.document (appliedEffects setting entity.ref r)) :
    typeOf r.entity.document = .ok type := by
  cases hkeep with
  | first hheld hputs =>
      have hlast := holds_resolve ⟨hobject, hheld⟩ (Slot.ignoresContents_isText type) (by decide)
        (by decide) hresolve hok hputs
      exact typeOf_eq_ok_iff.2 (.inl hlast.2)
  | second hheld hputs hother =>
      have hlast := holds_resolve ⟨hobject, hheld⟩ (Slot.ignoresContents_isText type) (by decide)
        (by decide) hresolve hok hputs
      have hfirst := holds_resolve ⟨hobject, hasNoOtherText_of_typeOf htype⟩
        (Slot.ignoresContents_hasNoOtherText type) (by decide) (by decide) hresolve hok hother
      exact typeOf_of_hasNoOtherText hfirst.2 hlast.2

/-- An encounter or an event that was read can be read again after a resolution of it, as the same
entity and with its variables, if the effects that were applied put nothing into the fields of the
record that cannot stand there. -/
theorem resolved_loadable (setting : Setting) (action : OneTimeAction) (now : Moment) (wire : Json)
    (entity : Entity) (r : Resolution) (hload : ofJson wire = .ok entity)
    (htype : entity.ref.type = EntityRef.encounter ∨ entity.ref.type = EntityRef.event)
    (hresolve : (resolve setting (action.run now) entity).outcome = .ok r) (hok : r.failure = none)
    (hvariables : PutOnly Slot.IsObject "variables" (appliedEffects setting entity.ref r))
    (hbranch : PutOnly Slot.IsOptionalText "branchId" (appliedEffects setting entity.ref r))
    (hkeep : KeepType entity.ref.type entity.document (appliedEffects setting entity.ref r)) :
    (∃ loaded, ofJson r.entity.document = .ok loaded ∧ loaded.ref = entity.ref) ∧
      HasVariables r.entity.document := by
  have hrecord := isRecord_of_ofJson hload
  have hobject := hrecord.hasVariables.isObject
  have hkept := (acted_resolve hobject (fun _ _ => acted_run) hresolve hok).1
  have hcampaign : Bytes.ofString "campaignId" ∈ protectedIn entity.ref.type := by
    rcases htype with heq | heq
    all_goals
      rw [heq]
      decide
  have hid : Bytes.ofString "id" ∈ protectedIn entity.ref.type := List.mem_cons_self
  have hlast : IsRecord entity.ref r.entity.document :=
    { type := typeOf_resolve hobject hrecord.type hresolve hok hkeep
      id := (hkept _ hid (by decide)).trans hrecord.id
      campaignId := by
        rw [hkept _ hcampaign (by decide)]
        exact hrecord.campaignId
      branchId := (holds_resolve ⟨hobject, hrecord.branchId⟩ Slot.ignoresContents_isOptionalText
        (by decide) (by decide) hresolve hok hbranch).2
      hasVariables := (holds_resolve ⟨hobject, hrecord.hasVariables⟩ Slot.ignoresContents_isObject
        (by decide) (by decide) hresolve hok hvariables).2 }
  exact ⟨hlast.exists_ofJson, hlast.hasVariables⟩

/-- One effect puts a number in place of the variables, but it has a guard that is not found and fails.
The other one puts in an object, and drops the branch. -/
theorem resolved_loadable_reform :
    let owner : EntityRef := ⟨EntityRef.encounter, "e1"⟩
    let sets : Bytes → Phase → List Json → Effect := fun id phase operations =>
      ⟨id, id, owner, phase, 0, .array operations, true, none, [], [], []⟩
    let scatter := { sets "scatter" .pre [.object [("op", "replace"), ("path", "/variables"),
      ("value", .unsigned 5)]] with guardId := some (Bytes.ofString "lost") }
    let reform := sets "reform" .post [
      .object [("op", "replace"), ("path", "/variables"), ("value", .object [("gold", .unsigned 7)])],
      .object [("op", "replace"), ("path", "/entityType"), ("value", "ENCOUNTER")],
      .object [("op", "remove"), ("path", "/branchId")]]
    let setting : Setting := ⟨.empty, [scatter, reform], [], [], false, .null⟩
    let wire : Json := .object [("branchId", "night"), ("entityType", "ENCOUNTER"), ("id", "e1")]
    ∃ entity r, ofJson wire = .ok entity ∧
      (resolve setting (CoreAction.resolveEncounter ⟨0⟩) entity).outcome = .ok r ∧ r.failure = none ∧
      r.applies reform.id ∧
      (∃ loaded, ofJson r.entity.document = .ok loaded ∧ loaded.ref = entity.ref) ∧
      HasVariables r.entity.document := by
  intro owner sets scatter reform setting wire
  let entity : Entity := ⟨owner, [], "night", .object [("branchId", "night"),
    ("entityType", "ENCOUNTER"), ("id", "e1"), ("variables", .object [])]⟩
  have hload : ofJson wire = .ok entity := by rfl
  obtain ⟨r, hresolve, hr⟩ := exists_ok_of_any
    (resolve setting (OneTimeAction.resolveEncounter.run ⟨0⟩) entity).outcome
    (fun r => r.failure.isNone && (r.applies reform.id && !r.applies scatter.id)) (by decide +kernel)
  simp only [Bool.and_eq_true, Bool.not_eq_true', Option.isNone_iff_eq_none] at hr
  obtain ⟨hok, happlies, hskipped⟩ := hr
  have happlied : ∀ effect ∈ appliedEffects setting owner r, effect = reform := by
    intro effect hmem
    obtain ⟨howned, happlied⟩ := List.mem_filter.1 hmem
    have heffects : effect ∈ [scatter, reform] := (List.mem_filter.1 howned).1
    rcases List.mem_cons.1 heffects with rfl | heq
    · rw [hskipped] at happlied
      cases happlied
    · exact List.mem_singleton.1 heq
  have hoperations : operationsOf reform.payload = [
      .replace "/variables" (.object [("gold", .unsigned 7)]), .replace "/entityType" "ENCOUNTER",
      .remove "/branchId"] := by rfl
  have hputs : ∀ {allowed : Option Json → Prop} {field : Bytes},
      (Names field "/variables" → allowed (some (.object [("gold", .unsigned 7)]))) →
      (Names field "/entityType" → allowed (some "ENCOUNTER")) →
      (Names field "/branchId" → allowed none) →
      PutOnly allowed field (appliedEffects setting owner r) := by
    intro allowed field hvariables htype hbranch effect hmem
    rw [happlied effect hmem, PutsOnly, hoperations]
    refine List.forall_mem_cons.2 ⟨?_, List.forall_mem_cons.2 ⟨?_, List.forall_mem_singleton.2 ?_⟩⟩
    · rintro _ ⟨hnames, rfl⟩
      exact hvariables hnames
    · rintro _ ⟨hnames, rfl⟩
      exact htype hnames
    · rintro _ ⟨hnames, rfl⟩
      exact hbranch hnames
  refine ⟨entity, r, hload, hresolve, hok, happlies, ?_⟩
  have hvariables : PutOnly Slot.IsObject "variables" (appliedEffects setting owner r) :=
    hputs (fun _ => ⟨_, rfl⟩) (fun hnames => absurd hnames (by decide))
      (fun hnames => absurd hnames (by decide))
  have hbranch : PutOnly Slot.IsOptionalText "branchId" (appliedEffects setting owner r) :=
    hputs (fun hnames => absurd hnames (by decide)) (fun hnames => absurd hnames (by decide))
      (fun _ => .inl rfl)
  have htype : PutOnly (Slot.IsText owner.type) "entityType" (appliedEffects setting owner r) :=
    hputs (fun hnames => absurd hnames (by decide)) (fun _ => rfl)
      (fun hnames => absurd hnames (by decide))
  exact resolved_loadable setting .resolveEncounter ⟨0⟩ wire entity r hload (.inl rfl) hresolve hok
    hvariables hbranch (.first rfl htype)

/-- Each of three effects spoils the record of an encounter: one makes an event of it, one puts a
number in place of its variables, and one takes the variables away. -/
theorem resolved_unloadable :
    let owner : EntityRef := ⟨EntityRef.encounter, "e1"⟩
    let setting : Json → Setting := fun operation => ⟨.empty, [⟨"spoil", "spoil", owner, .post, 0,
      .array [operation], true, none, [], [], []⟩], [], [], false, .null⟩
    let recast : Json := .object [("op", "replace"), ("path", "/entityType"), ("value", "EVENT")]
    let scatter : Json := .object [("op", "replace"), ("path", "/variables"), ("value", .unsigned 5)]
    let strip : Json := .object [("op", "remove"), ("path", "/variables")]
    let wire : Json := .object [("entityType", "ENCOUNTER"), ("id", "e1"), ("variables", .object [])]
    ∃ entity, ofJson wire = .ok entity ∧ entity.ref = owner ∧
      (∃ r loaded, (resolve (setting recast) (CoreAction.resolveEncounter ⟨0⟩) entity).outcome = .ok r ∧
        r.failure = none ∧ ofJson r.entity.document = .ok loaded ∧
        loaded.ref = ⟨EntityRef.event, "e1"⟩) ∧
      (∃ r, (resolve (setting scatter) (CoreAction.resolveEncounter ⟨0⟩) entity).outcome = .ok r ∧
        r.failure = none ∧ ∀ loaded, ofJson r.entity.document ≠ .ok loaded) ∧
      ∃ r, (resolve (setting strip) (CoreAction.resolveEncounter ⟨0⟩) entity).outcome = .ok r ∧
        r.failure = none ∧ ¬ HasVariables r.entity.document := by
  intro owner setting recast scatter strip wire
  let entity : Entity := ⟨owner, [], "main", wire⟩
  refine ⟨entity, rfl, rfl, ?_, ?_, ?_⟩
  · obtain ⟨r, hresolve, hr⟩ := exists_ok_of_any
      (resolve (setting recast) (CoreAction.resolveEncounter ⟨0⟩) entity).outcome
      (fun r => r.failure.isNone && (ofJson r.entity.document).toOption.any
        fun loaded => loaded.ref = ⟨EntityRef.event, "e1"⟩) (by decide +kernel)
    simp only [Bool.and_eq_true, Option.isNone_iff_eq_none] at hr
    obtain ⟨loaded, hloaded, href⟩ := exists_ok_of_any _ _ hr.2
    exact ⟨r, loaded, hresolve, hr.1, hloaded, of_decide_eq_true href⟩
  · obtain ⟨r, hresolve, hr⟩ := exists_ok_of_any
      (resolve (setting scatter) (CoreAction.resolveEncounter ⟨0⟩) entity).outcome
      (fun r => r.failure.isNone && (ofJson r.entity.document).toOption.isNone) (by decide +kernel)
    simp only [Bool.and_eq_true, Option.isNone_iff_eq_none] at hr
    refine ⟨r, hresolve, hr.1, fun loaded hloaded => ?_⟩
    rw [hloaded] at hr
    cases hr.2
  · obtain ⟨r, hresolve, hr⟩ := exists_ok_of_any
      (resolve (setting strip) (CoreAction.resolveEncounter ⟨0⟩) entity).outcome
      (fun r => r.failure.isNone && (r.entity.document.get? "variables").isNone) (by decide +kernel)
    simp only [Bool.and_eq_true, Option.isNone_iff_eq_none] at hr
    refine ⟨r, hresolve, hr.1, ?_⟩
    rintro ⟨held, hheld⟩
    cases hheld.symm.trans hr.2

end Resolution

end CampaignRules
