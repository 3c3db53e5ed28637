import CampaignRules.Json.Printer
import CampaignRules.Proofs.Json.Members
import CampaignRules.Proofs.Utf8

/-! # The texts in a value

A strict printer asks that all texts and keys of a value are UTF-8. This is kept when the members of
objects are put in order and when members are set. A lenient printer repairs what is not UTF-8, and
nothing else. -/

namespace CampaignRules.Json

theorem itemsUtf8_iff {items : List Json} : itemsUtf8 items ↔ ∀ v ∈ items, v.isUtf8 := by
  induction items with
  | nil => simp [itemsUtf8]
  | cons v rest ih => rw [itemsUtf8, Bool.and_eq_true, ih, List.forall_mem_cons]

theorem membersUtf8_iff {members : Members} :
    membersUtf8 members ↔ ∀ member ∈ members, Utf8.isValid member.1 ∧ member.2.isUtf8 := by
  induction members with
  | nil => simp [membersUtf8]
  | cons member rest ih =>
      rw [membersUtf8, Bool.and_eq_true, Bool.and_eq_true, ih, List.forall_mem_cons]

theorem hereditary_isUtf8 : Hereditary (fun v => v.isUtf8) (fun k => Utf8.isValid k) :=
  ⟨itemsUtf8_iff, membersUtf8_iff⟩

theorem isUtf8_set {v value : Json} {key : Bytes} (hv : v.isUtf8) (hkey : Utf8.isValid key)
    (hvalue : value.isUtf8) : (v.set key value).isUtf8 := by
  cases v with
  | object members =>
      refine membersUtf8_iff.2 fun member hmem => ?_
      rcases Members.mem_set hmem with rfl | hmem
      · exact ⟨hkey, hvalue⟩
      · exact membersUtf8_iff.1 hv member hmem
  | _ => exact hv

theorem isUtf8_of_get? {key : Bytes} {v value : Json} (hv : v.isUtf8)
    (hget : v.get? key = some value) : value.isUtf8 :=
  hereditary_isUtf8.of_get? hv hget

mutual

theorem isUtf8_repaired : ∀ v : Json, v.repaired.isUtf8
  | .null | .bool _ | .unsigned _ | .signed _ | .float _ => rfl
  | .string s => Utf8.isValid_repair s
  | .array items => itemsUtf8_itemsRepaired items
  | .object members => membersUtf8_membersRepaired members

theorem itemsUtf8_itemsRepaired : ∀ items : List Json, itemsUtf8 (itemsRepaired items)
  | [] => rfl
  | v :: rest => by
      rw [itemsRepaired, itemsUtf8, isUtf8_repaired v, itemsUtf8_itemsRepaired rest, Bool.and_self]

theorem membersUtf8_membersRepaired : ∀ members : Members, membersUtf8 (membersRepaired members)
  | [] => rfl
  | (k, v) :: rest => by
      rw [membersRepaired, membersUtf8, Utf8.isValid_repair k, isUtf8_repaired v,
        membersUtf8_membersRepaired rest, Bool.and_self, Bool.and_self]

end

mutual

theorem repaired_of_isUtf8 : ∀ {v : Json}, v.isUtf8 → v.repaired = v
  | .null, _ | .bool _, _ | .unsigned _, _ | .signed _, _ | .float _, _ => rfl
  | .string _, h => congrArg Json.string (Utf8.repair_of_isValid h)
  | .array _, h => congrArg Json.array (itemsRepaired_of_itemsUtf8 h)
  | .object _, h => congrArg Json.object (membersRepaired_of_membersUtf8 h)

theorem itemsRepaired_of_itemsUtf8 :
    ∀ {items : List Json}, itemsUtf8 items → itemsRepaired items = items
  | [], _ => rfl
  | v :: rest, h => by
      rw [itemsUtf8, Bool.and_eq_true] at h
      rw [itemsRepaired, repaired_of_isUtf8 h.1, itemsRepaired_of_itemsUtf8 h.2]

theorem membersRepaired_of_membersUtf8 :
    ∀ {members : Members}, membersUtf8 members → membersRepaired members = members
  | [], _ => rfl
  | (k, v) :: rest, h => by
      rw [membersUtf8, Bool.and_eq_true, Bool.and_eq_true] at h
      rw [membersRepaired, Utf8.repair_of_isValid h.1.1, repaired_of_isUtf8 h.1.2,
        membersRepaired_of_membersUtf8 h.2]

end

end CampaignRules.Json
