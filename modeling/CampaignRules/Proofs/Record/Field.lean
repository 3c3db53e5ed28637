import CampaignRules.Proofs.Failure
import CampaignRules.Record.Field

/-! # What the fields of a record are read as

A field is read from what its key holds. What a field is written as, it is read from again. -/

namespace CampaignRules

namespace Slot

def IsObject (slot : Option Json) : Prop :=
  ∃ members, slot = some (.object members)

/-- A text, or nothing in its place. -/
def IsOptionalText (slot : Option Json) : Prop :=
  slot = none ∨ slot = some .null ∨ ∃ text, slot = some (.string text)

def IsText (text : Bytes) (slot : Option Json) : Prop :=
  slot = some (.string text)

/-- If there is a text, it is this one. -/
def HasNoOtherText (text : Bytes) (slot : Option Json) : Prop :=
  ∀ other, slot = some (.string other) → other = text

end Slot

namespace Json

theorem getText?_eq_some_iff {key text : Bytes} {document : Json} :
    document.getText? key = some text ↔ Slot.IsText text (document.get? key) := by
  rw [Json.getText?, Slot.IsText]
  cases document.get? key with
  | none => simp
  | some v => cases v <;> simp [Json.text?]

/-- Of several members with one key, an object made of them has the last one. -/
theorem get?_ofMembers (key : Bytes) (members : Members) :
    (ofMembers members).get? key = Members.get? key members.reverse := by
  show Members.get? key (Members.ofList members) = _
  rw [Members.ofList, ← List.foldr_reverse]
  induction members.reverse with
  | nil => rfl
  | cons member rest ih =>
      rw [List.foldr_cons, Members.get?_set, ih, Members.get?]
      simp only [eq_comm]

end Json

namespace Record

variable {key : String} {record : Bytes} {wire : Json}

theorem requiredText_eq_ok_iff {text : Bytes} :
    requiredText record key wire = .ok text ↔ wire.get? key = some (.string text) := by
  rw [requiredText]
  split
  · rename_i held hheld
    simp [hheld]
  · rename_i hheld
    refine ⟨fun h => ?_, fun h => absurd h (hheld text)⟩
    cases h

theorem optionalText_eq_ok_iff {found : Option Bytes} : optionalText key wire = .ok found ↔
    Slot.IsOptionalText (wire.get? key) ∧ found = wire.getText? key := by
  rw [optionalText, Slot.IsOptionalText, Json.getText?]
  cases hheld : wire.get? key with
  | none => simp [eq_comm]
  | some v => cases v <;> simp [Json.text?, eq_comm]

theorem optionalText_of_text {text : Bytes} (hheld : wire.get? key = some (.string text)) :
    optionalText key wire = .ok (some text) := by
  rw [optionalText, hheld]

theorem optionalText_of_optionalToJson {text : Option Bytes}
    (hheld : wire.get? key = some (optionalToJson text)) : optionalText key wire = .ok text := by
  rw [optionalText, hheld]
  cases text <;> rfl

theorem optionalInt_of_ofInt32 {n default : Int32} (hheld : wire.get? key = some (.ofInt32 n)) :
    optionalInt key default wire = .ok n := by
  have hread : (Json.ofInt32 n).toInt32? = some n := by simp [Json.ofInt32, Json.toInt32?]
  rw [optionalInt, hheld]
  simp only [Json.ofInt32] at hread ⊢
  rw [hread]

theorem optionalBool_of_bool {b default : Bool} (hheld : wire.get? key = some (.bool b)) :
    optionalBool key default wire = .ok b := by
  rw [optionalBool, hheld]

theorem textOr_of_text {text default : Bytes} (hheld : wire.get? key = some (.string text)) :
    textOr key default wire = text := by
  rw [textOr, Json.getText?_eq_some_iff.2 hheld, Option.getD_some]

end Record

end CampaignRules
