import CampaignRules.Json.Equality
import CampaignRules.Proofs.Json.Members

/-! # Values that equal themselves

Equality of values is reflexive but for one float, NaN. -/

namespace CampaignRules.Json

/-- A float that is a number or an infinity equals itself. -/
theorem beq_self_of_isNaN {x : Float} (hx : x.isNaN = false) : (x == x) = true := by
  have hx : x.toModel.unpack.isNaN = false := hx
  show (x.toModel.unpack.compare x.toModel.unpack == some .eq) = true
  cases hunpack : x.toModel.unpack with
  | notANumber =>
      rw [hunpack] at hx
      cases hx
  | infinity sign => cases sign <;> rfl
  | zero sign => rfl
  | finite sign mantissa exponent hpos =>
      have hsame : (compare exponent exponent).then (compare mantissa mantissa) = .eq := by simp
      cases sign with
      | positive =>
          show (some ((compare exponent exponent).then (compare mantissa mantissa)) == some .eq) = true
          rw [hsame]
          rfl
      | negative =>
          show (some ((compare exponent exponent).then (compare mantissa mantissa)).swap == some .eq) = true
          rw [hsame]
          rfl

mutual

/-- No float in the value is NaN. -/
def NanFree : Json → Prop
  | .float x => x.isNaN = false
  | .array items => ItemsNanFree items
  | .object members => MembersNanFree members
  | _ => True

def ItemsNanFree : List Json → Prop
  | [] => True
  | v :: rest => NanFree v ∧ ItemsNanFree rest

def MembersNanFree : List (Bytes × Json) → Prop
  | [] => True
  | (_, v) :: rest => NanFree v ∧ MembersNanFree rest

end

mutual

theorem equal_self : ∀ {v : Json}, v.NanFree → v.equal v = true
  | .null, _ => rfl
  | .bool b, _ => by simp [equal]
  | .string text, _ => by simp [equal]
  | .unsigned n, _ => by simp [equal, numbersEqual]
  | .signed n, _ => by simp [equal, numbersEqual]
  | .float x, h => by
    rw [NanFree] at h
    simp only [equal, numbersEqual, toFloat?, beq_self_of_isNaN h]
  | .array items, h => by
    rw [NanFree] at h
    rw [equal, itemsEqual_self h]
  | .object members, h => by
    rw [NanFree] at h
    rw [equal, membersEqual_self h]

theorem itemsEqual_self : ∀ {items : List Json}, ItemsNanFree items → itemsEqual items items = true
  | [], _ => rfl
  | v :: rest, h => by
    rw [ItemsNanFree] at h
    rw [itemsEqual, equal_self h.1, itemsEqual_self h.2, Bool.and_true]

theorem membersEqual_self :
    ∀ {members : Members}, MembersNanFree members → membersEqual members members = true
  | [], _ => rfl
  | (k, v) :: rest, h => by
    rw [MembersNanFree] at h
    simp [membersEqual, equal_self h.1, membersEqual_self h.2]

end

theorem itemsNanFree_iff {items : List Json} : ItemsNanFree items ↔ ∀ v ∈ items, v.NanFree := by
  induction items with
  | nil => simp [ItemsNanFree]
  | cons v rest ih => rw [ItemsNanFree, ih, List.forall_mem_cons]

theorem membersNanFree_iff {members : Members} :
    MembersNanFree members ↔ ∀ member ∈ members, member.2.NanFree := by
  induction members with
  | nil => simp [MembersNanFree]
  | cons member rest ih => rw [MembersNanFree, ih, List.forall_mem_cons]

theorem nanFree_of_get? {key : Bytes} {document value : Json} (hfree : document.NanFree)
    (hget : document.get? key = some value) : value.NanFree := by
  cases document with
  | object members =>
      rw [NanFree] at hfree
      exact membersNanFree_iff.1 hfree (key, value) (Members.mem_of_get? hget)
  | _ => cases hget

/-- The values that texts spell: their keys are in order, and they equal themselves. -/
structure Regular (v : Json) : Prop where
  isCanonical : v.IsCanonical
  nanFree : v.NanFree

theorem equal_object_iff {members : Members} {v : Json} :
    (object members).equal v ↔ ∃ other, v = .object other ∧ membersEqual members other := by
  cases v <;> simp [equal, numbersEqual, toFloat?]

theorem isObject_of_equal {v w : Json} (hequal : v.equal w) : v.isObject = w.isObject := by
  cases v <;> cases w <;> first | rfl | simp [equal, numbersEqual, toFloat?] at hequal

end CampaignRules.Json
