import CampaignRules.Json.Pointer
import CampaignRules.Proofs.Json.Members
import CampaignRules.Recorded

/-! # Places in values

A token that leads somewhere has one place in a value to itself. What is put there is found there, the
last value put there counts, and putting back what is there changes nothing. So a change at the end of
a pointer is undone in the whole value by what undoes it there. -/

namespace CampaignRules.Json

namespace Pointer

variable {token : Bytes} {v inner : Json}

theorem child_object_eq_ok_iff {members : Members} : child token (.object members) = .ok inner ↔
    Members.get? token members = some inner := by
  rw [child]
  cases hmember : Members.get? token members <;> simp

theorem child_array_eq_ok_iff {items : List Json} : child token (.array items) = .ok inner ↔
    ∃ n, index items.length token = .ok n ∧ items[n]? = some inner := by
  rw [child]
  cases index items.length token with
  | error failure => simp
  | ok n => cases hitem : items[n]? <;> simp [hitem]

/-- What is put in the place is found there. -/
theorem child_replaceChild (hchild : child token v = .ok inner) (value : Json) :
    child token (replaceChild token value v) = .ok value := by
  cases v with
  | object members => exact child_object_eq_ok_iff.2 (by rw [Members.get?_set, if_pos rfl])
  | array items =>
      obtain ⟨n, hindex, hitem⟩ := child_array_eq_ok_iff.1 hchild
      obtain ⟨hlt, -⟩ := List.getElem?_eq_some_iff.1 hitem
      rw [replaceChild, hindex]
      refine child_array_eq_ok_iff.2 ⟨n, ?_, List.getElem?_set_self hlt⟩
      rw [List.length_set, hindex]
  | _ => cases hchild

/-- The last value put in the place counts. -/
theorem replaceChild_replaceChild (token : Bytes) (first last v : Json) :
    replaceChild token last (replaceChild token first v) = replaceChild token last v := by
  cases v with
  | object members => exact congrArg Json.object (Members.set_set token first last members)
  | array items =>
      cases hindex : index items.length token with
      | error failure => simp only [replaceChild, hindex]
      | ok n => simp only [replaceChild, hindex, List.length_set, List.set_set]
  | _ => rfl

/-- Putting back what is in the place changes nothing. -/
theorem replaceChild_self (hcanonical : v.IsCanonical) (hchild : child token v = .ok inner) :
    replaceChild token inner v = v := by
  cases v with
  | object members =>
      have hheld := child_object_eq_ok_iff.1 hchild
      exact congrArg Json.object (Members.set_self hcanonical.1 hheld)
  | array items =>
      obtain ⟨n, hindex, hitem⟩ := child_array_eq_ok_iff.1 hchild
      obtain ⟨hlt, rfl⟩ := List.getElem?_eq_some_iff.1 hitem
      rw [replaceChild, hindex]
      exact congrArg Json.array (List.set_getElem_self hlt)
  | _ => cases hchild

theorem isCanonical_child (hcanonical : v.IsCanonical) (hchild : child token v = .ok inner) :
    inner.IsCanonical := by
  cases v with
  | object members =>
      have hheld : (object members).get? token = some inner := child_object_eq_ok_iff.1 hchild
      exact isCanonical_of_get? hcanonical hheld
  | array items =>
      obtain ⟨n, -, hitem⟩ := child_array_eq_ok_iff.1 hchild
      exact itemsCanonical_iff.1 hcanonical inner (List.mem_of_getElem? hitem)
  | _ => cases hchild

end Pointer

variable {ε : Type} {lift lift' : Failure → ε} {change other : Json → Except ε Json} {pointer : Pointer}

/-- The last step of a pointer is one from what the steps before it lead to. -/
theorem at?_concat_eq_ok_iff {token : Bytes} {inner : Json} : ∀ {v : Json},
    v.at? (pointer ++ [token]) = .ok inner ↔
      ∃ held, v.at? pointer = .ok held ∧ Pointer.child token held = .ok inner := by
  induction pointer with
  | nil =>
      intro v
      simp only [List.nil_append, at?, bind_eq_ok, Except.ok.injEq, exists_eq_right, exists_eq_left']
  | cons first rest ih =>
      intro v
      simp only [List.cons_append, at?, bind_eq_ok, ih]
      grind

/-- What a pointer leads to can be changed in place. -/
theorem exists_updateAt_of_at? {held changed : Json} (hchange : change held = .ok changed) :
    ∀ {v : Json}, v.at? pointer = .ok held → ∃ after, v.updateAt lift change pointer = .ok after := by
  induction pointer with
  | nil =>
      intro v hheld
      cases hheld
      exact ⟨changed, hchange⟩
  | cons token rest ih =>
      intro v hheld
      obtain ⟨inner, hchild, hrest⟩ := bind_eq_ok.1 hheld
      obtain ⟨after, hafter⟩ := ih hrest
      exact ⟨_, bind_eq_ok.2 ⟨inner, mapError_eq_ok.2 hchild, bind_eq_ok.2 ⟨after, hafter, rfl⟩⟩⟩

/-- How failures are reported is of no concern to a change that is carried out. -/
theorem updateAt_mono (hmono : ∀ inner changed, change inner = .ok changed → other inner = .ok changed) :
    ∀ {v after : Json}, v.updateAt lift change pointer = .ok after →
      v.updateAt lift' other pointer = .ok after := by
  induction pointer with
  | nil => exact hmono _ _
  | cons token rest ih =>
      intro v after hafter
      obtain ⟨inner, hinner, hrest⟩ := bind_eq_ok.1 hafter
      obtain ⟨changed, hchanged, heq⟩ := bind_eq_ok.1 hrest
      have hchild := mapError_eq_ok.1 hinner
      exact bind_eq_ok.2 ⟨inner, mapError_eq_ok.2 hchild, bind_eq_ok.2 ⟨changed, ih hchanged, heq⟩⟩

/-- A change of what a pointer leads to is undone in the whole value by what undoes it there. -/
theorem updateAt_undo {ε : Type} {lift lift' : Failure → ε} {change undo : Json → Except ε Json}
    {pointer : Pointer} : ∀ {v after : Json}, v.IsCanonical →
      (∀ inner changed, v.at? pointer = .ok inner → inner.IsCanonical → change inner = .ok changed →
        undo changed = .ok inner) →
      v.updateAt lift change pointer = .ok after → after.updateAt lift' undo pointer = .ok v := by
  induction pointer with
  | nil => exact fun hcanonical hundo hchange => hundo _ _ rfl hcanonical hchange
  | cons token rest ih =>
      intro v after hcanonical hundo hchange
      obtain ⟨inner, hinner, hrest⟩ := bind_eq_ok.1 hchange
      obtain ⟨changed, hchanged, heq⟩ := bind_eq_ok.1 hrest
      cases heq
      have hchild := mapError_eq_ok.1 hinner
      have hback : changed.updateAt lift' undo rest = .ok inner := by
        refine ih (Pointer.isCanonical_child hcanonical hchild) (fun last _ hlast => ?_) hchanged
        refine hundo last _ ?_
        rw [at?, hchild]
        exact hlast
      -- on the way back up each place takes back what it held
      have hrestored : Pointer.replaceChild token inner (Pointer.replaceChild token changed v) = v :=
        calc
          _ = Pointer.replaceChild token inner v := Pointer.replaceChild_replaceChild token _ _ v
          _ = v := Pointer.replaceChild_self hcanonical hchild
      rw [updateAt, Pointer.child_replaceChild hchild]
      exact bind_eq_ok.2 ⟨changed, rfl, bind_eq_ok.2 ⟨inner, hback, congrArg Except.ok hrestored⟩⟩

end CampaignRules.Json
