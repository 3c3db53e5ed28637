import CampaignRules.Proofs.Patch.Variables
import CampaignRules.Proofs.Record.Field
import CampaignRules.Record.Entity

/-! # Entities and their documents

An entity that was read repeats what its document holds: its reference, its campaign and its branch
are in the document, which has variables even if none were given. So it is read again from its
document, and from what it is written as, which differs in the field for the type at most. -/

namespace CampaignRules.Entity

open Patch Record

variable {wire document : Json} {entity : Entity} {ref : EntityRef} {type : Bytes}

theorem typeOf_eq_ok_iff : typeOf document = .ok type ↔
    Slot.IsText type (document.get? "entityType") ∨
      document.getText? "entityType" = none ∧ Slot.IsText type (document.get? "type") := by
  rw [typeOf, ← Json.getText?_eq_some_iff]
  cases document.getText? "entityType" with
  | none => simpa [Slot.IsText] using requiredText_eq_ok_iff
  | some text => simp

theorem hasNoOtherText_of_typeOf (htype : typeOf document = .ok type) :
    Slot.HasNoOtherText type (document.get? "entityType") := by
  intro other hother
  rcases typeOf_eq_ok_iff.1 htype with htext | ⟨hnone, -⟩
  · cases hother.symm.trans htext
    rfl
  · cases hnone.symm.trans (Json.getText?_eq_some_iff.2 hother)

theorem typeOf_of_hasNoOtherText (hfirst : Slot.HasNoOtherText type (document.get? "entityType"))
    (hsecond : Slot.IsText type (document.get? "type")) : typeOf document = .ok type := by
  refine typeOf_eq_ok_iff.2 ?_
  cases hheld : document.getText? "entityType" with
  | none => exact .inr ⟨rfl, hsecond⟩
  | some other =>
      have hother := Json.getText?_eq_some_iff.1 hheld
      exact .inl (hfirst other hother ▸ hother)

/-- What a document holds that is read as the entity of a reference. -/
structure IsRecord (ref : EntityRef) (document : Json) : Prop where
  type : typeOf document = .ok ref.type
  id : document.get? "id" = some (.string ref.id)
  campaignId : Slot.IsOptionalText (document.get? "campaignId")
  branchId : Slot.IsOptionalText (document.get? "branchId")
  hasVariables : HasVariables document

/-- The entity repeats what its document holds. -/
structure Mirrors (entity : Entity) : Prop where
  record : IsRecord entity.ref entity.document
  campaignId : entity.campaignId = (entity.document.getText? "campaignId").getD []
  branchId : entity.branchId = (entity.document.getText? "branchId").getD "main"

/-- All fields count, except that the variables only have to be there. -/
theorem IsRecord.congr_fields (hvariables : HasVariables document)
    (hfields : ∀ field : Bytes, field ≠ "variables" → document.get? field = wire.get? field)
    (htype : typeOf wire = .ok ref.type) (hid : wire.get? "id" = some (.string ref.id))
    (hcampaign : Slot.IsOptionalText (wire.get? "campaignId"))
    (hbranch : Slot.IsOptionalText (wire.get? "branchId")) : IsRecord ref document where
  type := by
    rw [typeOf_eq_ok_iff, Json.getText?] at htype ⊢
    rwa [hfields "entityType" (by decide), hfields "type" (by decide)]
  id := (hfields "id" (by decide)).trans hid
  campaignId := by rwa [hfields "campaignId" (by decide)]
  branchId := by rwa [hfields "branchId" (by decide)]
  hasVariables := hvariables

/-- An entity that is read has variables, if only an empty object of them. -/
theorem mirrors_of_ofJson (hload : ofJson wire = .ok entity) : entity.Mirrors := by
  rw [ofJson] at hload
  split at hload
  · cases hload
  rename_i hobject
  rw [Bool.not_eq_true, Bool.not_eq_false'] at hobject
  obtain ⟨type, htype, hload⟩ := bind_eq_ok.1 hload
  obtain ⟨id, hid, hload⟩ := bind_eq_ok.1 hload
  obtain ⟨campaignId, hcampaign, hload⟩ := bind_eq_ok.1 hload
  obtain ⟨branchId, hbranch, hload⟩ := bind_eq_ok.1 hload
  rw [optionalText_eq_ok_iff] at hcampaign hbranch
  have hmirrors : ∀ document, HasVariables document →
      (∀ field : Bytes, field ≠ "variables" → document.get? field = wire.get? field) →
      Mirrors ⟨⟨type, id⟩, campaignId.getD [], branchId.getD "main", document⟩ :=
    fun document hvariables hfields =>
      { record := .congr_fields hvariables hfields htype (requiredText_eq_ok_iff.1 hid) hcampaign.1
          hbranch.1
        campaignId := by rw [hcampaign.2, Json.getText?, Json.getText?, hfields _ (by decide)]
        branchId := by rw [hbranch.2, Json.getText?, Json.getText?, hfields _ (by decide)] }
  have hempty : Mirrors ⟨⟨type, id⟩, campaignId.getD [], branchId.getD "main",
      wire.set "variables" (.object [])⟩ :=
    hmirrors _ ⟨[], Json.get?_set_self hobject _ _⟩ fun _ hne => Json.get?_set_ne hne _ _
  simp only at hload
  split at hload
  · cases hload
    exact hempty
  · cases hload
    exact hempty
  · rename_i members hheld
    cases hload
    exact hmirrors _ ⟨members, hheld⟩ fun _ _ => rfl
  · cases hload

theorem isRecord_of_ofJson (hload : ofJson wire = .ok entity) : IsRecord entity.ref entity.document :=
  (mirrors_of_ofJson hload).record

theorem IsRecord.ofJson (h : IsRecord ref document) :
    ofJson document = .ok ⟨ref, (document.getText? "campaignId").getD [],
      (document.getText? "branchId").getD "main", document⟩ := by
  have hid : requiredText "Entity" "id" document = .ok ref.id := requiredText_eq_ok_iff.2 h.id
  have hcampaign := optionalText_eq_ok_iff.2 ⟨h.campaignId, rfl⟩
  have hbranch := optionalText_eq_ok_iff.2 ⟨h.branchId, rfl⟩
  obtain ⟨held, hheld⟩ := h.hasVariables
  simp only [Entity.ofJson, h.hasVariables.isObject, h.type, hid, hcampaign, hbranch, hheld]
  rfl

theorem IsRecord.exists_ofJson (h : IsRecord ref document) :
    ∃ loaded, Entity.ofJson document = .ok loaded ∧ loaded.ref = ref :=
  ⟨_, h.ofJson, rfl⟩

/-- An entity is read again from its document. -/
theorem Mirrors.ofJson (h : entity.Mirrors) : Entity.ofJson entity.document = .ok entity := by
  rw [h.record.ofJson, ← h.campaignId, ← h.branchId]

/-- The entity as it is read from what it is written as. -/
def reread (e : Entity) : Entity :=
  { e with document := e.document.set "entityType" e.ref.type }

theorem get?_reread {field : Bytes} (hfield : field ≠ "entityType") :
    entity.reread.document.get? field = entity.document.get? field :=
  Json.get?_set_ne hfield _ _

theorem Mirrors.reread (h : entity.Mirrors) : entity.reread.Mirrors where
  record :=
    { type := typeOf_eq_ok_iff.2 (.inl (Json.get?_set_self h.record.hasVariables.isObject _ _))
      id := (get?_reread (by decide)).trans h.record.id
      campaignId := by
        rw [get?_reread (by decide)]
        exact h.record.campaignId
      branchId := by
        rw [get?_reread (by decide)]
        exact h.record.branchId
      hasVariables := h.record.hasVariables.congr (get?_reread (by decide)) }
  campaignId := by
    rw [Json.getText?, get?_reread (by decide)]
    exact h.campaignId
  branchId := by
    rw [Json.getText?, get?_reread (by decide)]
    exact h.branchId

theorem ofJson_toJson (h : entity.Mirrors) : Entity.ofJson entity.toJson = .ok entity.reread :=
  h.reread.ofJson

/-- What is read from it is written the same. -/
theorem toJson_reread (e : Entity) : e.reread.toJson = e.toJson :=
  Json.set_set _ _ _ _

end CampaignRules.Entity
