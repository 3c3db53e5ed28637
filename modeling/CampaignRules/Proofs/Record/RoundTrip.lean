import CampaignRules.Proofs.Record.Field
import CampaignRules.Record.Condition
import CampaignRules.Record.Effect

/-! # Conditions and effects written and read

Writing gives every field of a condition or an effect in the form in which reading takes it as it
is. So what is written is read as the same record, whatever that record holds. -/

namespace CampaignRules

open Record

theorem Condition.ofJson_toJson (c : Condition) : ofJson c.toJson = .ok c := by
  have hget : ∀ key : String, c.toJson.get? key = _ := fun key => Json.get?_ofMembers key _
  simp only [List.reverse_cons, List.reverse_nil, List.nil_append, List.cons_append,
    Json.Members.get?, Bytes.ofString_inj] at hget
  have hid : requiredText "Condition" "id" c.toJson = .ok c.id :=
    requiredText_eq_ok_iff.2 (by simp [hget])
  have htype : requiredText "Condition" "entityType" c.toJson = .ok c.entityType :=
    requiredText_eq_ok_iff.2 (by simp [hget])
  have hentity : optionalText "entityId" c.toJson = .ok c.entityId :=
    optionalText_of_optionalToJson (by simp [hget])
  have hfield : optionalText "field" c.toJson = .ok (some c.field) :=
    optionalText_of_text (by simp [hget])
  have hexpression : c.toJson.get? "expression" = some c.expression := by simp [hget]
  have hdescription : textOr "description" [] c.toJson = c.description :=
    textOr_of_text (by simp [hget])
  have hpriority : optionalInt "priority" 0 c.toJson = .ok c.priority :=
    optionalInt_of_ofInt32 (by simp [hget])
  have hactive : optionalBool "isActive" true c.toJson = .ok c.isActive :=
    optionalBool_of_bool (by simp [hget])
  have hversion : optionalInt "version" 1 c.toJson = .ok c.version :=
    optionalInt_of_ofInt32 (by simp [hget])
  have hcampaign : optionalText "campaignId" c.toJson = .ok (some c.campaignId) :=
    optionalText_of_text (by simp [hget])
  have hbranch : optionalText "branchId" c.toJson = .ok (some c.branchId) :=
    optionalText_of_text (by simp [hget])
  simp only [ofJson, hid, htype, hentity, hfield, hexpression, hdescription, hpriority, hactive,
    hversion, hcampaign, hbranch]
  rfl

theorem Phase.ofName?_name (phase : Phase) : Phase.ofName? phase.name = some phase := by
  cases phase <;> rfl

theorem Effect.ofJson_toJson (e : Effect) : ofJson e.toJson = .ok e := by
  have hget : ∀ key : String, e.toJson.get? key = _ := fun key => Json.get?_ofMembers key _
  simp only [List.reverse_cons, List.reverse_nil, List.nil_append, List.cons_append,
    Json.Members.get?, Bytes.ofString_inj] at hget
  have hid : requiredText "Effect" "id" e.toJson = .ok e.id :=
    requiredText_eq_ok_iff.2 (by simp [hget])
  have hname : textOr "name" e.id e.toJson = e.name := textOr_of_text (by simp [hget])
  have htype : requiredText "Effect" "entityType" e.toJson = .ok e.owner.type :=
    requiredText_eq_ok_iff.2 (by simp [hget])
  have hentity : requiredText "Effect" "entityId" e.toJson = .ok e.owner.id :=
    requiredText_eq_ok_iff.2 (by simp [hget])
  have htiming : optionalText "timing" e.toJson = .ok (some e.timing.name) :=
    optionalText_of_text (by simp [hget])
  have hpriority : optionalInt "priority" 0 e.toJson = .ok e.priority :=
    optionalInt_of_ofInt32 (by simp [hget])
  have hpayload : e.toJson.get? "payload" = some e.payload := by simp [hget]
  have hactive : optionalBool "isActive" true e.toJson = .ok e.isActive :=
    optionalBool_of_bool (by simp [hget])
  have hguard : optionalText "conditionId" e.toJson = .ok e.guardId :=
    optionalText_of_optionalToJson (by simp [hget])
  have hdescription : textOr "description" [] e.toJson = e.description :=
    textOr_of_text (by simp [hget])
  have hcampaign : optionalText "campaignId" e.toJson = .ok (some e.campaignId) :=
    optionalText_of_text (by simp [hget])
  have hbranch : optionalText "branchId" e.toJson = .ok (some e.branchId) :=
    optionalText_of_text (by simp [hget])
  simp only [ofJson, bind, Except.bind, hid, hname, htype, hentity, htiming, Option.getD_some,
    Phase.ofName?_name, hpriority, hpayload, hactive, hguard, hdescription, hcampaign, hbranch]
  rfl

end CampaignRules
