import Mathlib.Logic.Relation
import CampaignRules.Patch.Apply

/-! # Changes that make up a patch

Whatever the operations of a patch are, it comes down to changes of three kinds, one after the other,
at places that the operations name. What all such changes keep the patch keeps. -/

namespace CampaignRules.Patch

variable {index : Nat} {place entityType : Bytes} {document after payload : Json}
  {operation : Operation} {operations : List Operation}

/-- The places that an operation names. -/
def Operation.places : Operation → List Bytes
  | .add path _ | .remove path | .replace path _ | .test path _ => [path]
  | .copy source path | .move source path => [source, path]

/-- The places that an operation changes; one that is copied from or tested stays as it is. -/
def Operation.changedPlaces : Operation → List Bytes
  | .add path _ | .remove path | .replace path _ | .copy _ path => [path]
  | .move source path => [source, path]
  | .test .. => []

theorem Operation.changedPlaces_subset (operation : Operation) :
    operation.changedPlaces ⊆ operation.places := by
  cases operation <;> simp [changedPlaces, places]

/-- The last token names the place in what the tokens before it lead to. -/
theorem parentAndName_eq_ok_iff {parent : Json.Pointer} {name : Bytes} :
    parentAndName index place = .ok (parent, name) ↔
      Json.Pointer.parse place = .ok (parent ++ [name]) := by
  constructor
  · intro hparent
    obtain ⟨pointer, hpointer, hlast⟩ := bind_eq_ok.1 hparent
    split at hlast
    · rename_i last hget
      obtain ⟨front, rfl⟩ := List.getLast?_eq_some_iff.1 hget
      cases hlast
      rw [List.dropLast_concat]
      exact parse_of_pointerOf hpointer
    · cases hlast
  · intro hparse
    refine bind_eq_ok.2 ⟨parent ++ [name], mapError_eq_ok.2 hparse, ?_⟩
    rw [List.getLast?_concat, List.dropLast_concat]
    rfl

/-- One change at a place. -/
inductive PlaceChange (place : Bytes) (document after : Json) : Prop where
  | added {index : Nat} {value : Json} (hadd : addAt index place value document = .ok after)
  | removed {index : Nat} (hremove : removeAt index place document = .ok after)
  | replaced {index : Nat} {value : Json}
      (hreplace : replaceAt index place value document = .ok after)

/-- Changes one after the other, each at one of the places. -/
def Changed (places : List Bytes) : Json → Json → Prop :=
  Relation.ReflTransGen fun document after => ∃ place ∈ places, PlaceChange place document after

theorem PlaceChange.changed {places : List Bytes} (h : PlaceChange place document after)
    (hmem : place ∈ places) : Changed places document after :=
  .single ⟨place, hmem, h⟩

theorem Changed.mono {places more : List Bytes} (h : Changed places document after)
    (hsub : places ⊆ more) : Changed more document after :=
  Relation.ReflTransGen.mono (fun _ _ ⟨place, hmem, hchange⟩ => ⟨place, hsub hmem, hchange⟩) _ _ h

theorem changed_operation (happly : operation.apply index document = .ok after) :
    Changed operation.changedPlaces document after := by
  cases operation with
  | add path value => exact (PlaceChange.added happly).changed List.mem_cons_self
  | remove path => exact (PlaceChange.removed happly).changed List.mem_cons_self
  | replace path value => exact (PlaceChange.replaced happly).changed List.mem_cons_self
  | copy source path =>
      obtain ⟨value, -, hadd⟩ := bind_eq_ok.1 happly
      exact (PlaceChange.added hadd).changed List.mem_cons_self
  | move source path =>
      rw [Operation.apply] at happly
      split at happly
      · cases happly
        exact .refl
      · obtain ⟨value, -, hmove⟩ := bind_eq_ok.1 happly
        obtain ⟨middle, hremove, hadd⟩ := bind_eq_ok.1 hmove
        exact ((PlaceChange.removed hremove).changed List.mem_cons_self).trans
          ((PlaceChange.added hadd).changed (List.mem_cons_of_mem _ List.mem_cons_self))
  | test path value =>
      obtain ⟨actual, -, htest⟩ := bind_eq_ok.1 happly
      split at htest
      · cases htest
        exact .refl
      · cases htest

theorem readFrom_cons_eq_ok_iff {wire : Json} {wires : List Json} :
    readFrom index (wire :: wires) = .ok operations ↔ ∃ operation later,
      Operation.ofJson index wire = .ok operation ∧ readFrom (index + 1) wires = .ok later ∧
        operation :: later = operations := by
  constructor
  · intro hread
    obtain ⟨operation, hfirst, hrest⟩ := bind_eq_ok.1 hread
    obtain ⟨later, hlater, heq⟩ := bind_eq_ok.1 hrest
    exact ⟨operation, later, hfirst, hlater, Except.ok.inj heq⟩
  · rintro ⟨operation, later, hfirst, hlater, rfl⟩
    exact bind_eq_ok.2 ⟨operation, hfirst, bind_eq_ok.2 ⟨later, hlater, rfl⟩⟩

theorem applyFrom_cons_eq_ok_iff :
    (applyFrom index document (operation :: operations)).outcome = .ok after ↔
      ∃ middle, operation.apply index document = .ok middle ∧
        (applyFrom (index + 1) middle operations).outcome = .ok after := by
  rw [applyFrom, Recorded.outcome_bind]
  exact bind_eq_ok

theorem changed_applyFrom : ∀ {index : Nat} {document : Json},
    (applyFrom index document operations).outcome = .ok after →
      Changed (operations.flatMap Operation.changedPlaces) document after := by
  induction operations with
  | nil =>
      intro index document happly
      cases happly
      exact .refl
  | cons operation rest ih =>
      intro index document happly
      obtain ⟨middle, hfirst, hrest⟩ := applyFrom_cons_eq_ok_iff.1 happly
      exact ((changed_operation hfirst).mono (List.subset_append_left _ _)).trans
        ((ih hrest).mono (List.subset_append_right _ _))

theorem apply_eq_ok_iff {applied : Applied} :
    (apply document payload entityType).outcome = .ok applied ↔
      (check payload entityType).isValid ∧ ∃ operations,
        readFrom 0 (payload.items?.getD []) = .ok operations ∧
        (applyFrom 0 document operations).outcome = .ok applied.document ∧
        applied.diff = .between document applied.document := by
  rw [apply]
  split
  · rename_i hvalid
    simp only [Recorded.outcome_bind, Recorded.outcome_ofExcept, Recorded.outcome_pure]
    constructor
    · intro happly
      obtain ⟨operations, hread, hrest⟩ := bind_eq_ok.1 happly
      obtain ⟨after, hafter, heq⟩ := bind_eq_ok.1 hrest
      cases heq
      exact ⟨hvalid, operations, hread, hafter, rfl⟩
    · rintro ⟨-, operations, hread, hafter, hdiff⟩
      refine bind_eq_ok.2 ⟨operations, hread, bind_eq_ok.2 ⟨_, hafter, ?_⟩⟩
      rw [← hdiff]
  · rename_i hinvalid
    refine ⟨fun happly => ?_, fun h => absurd h.1 hinvalid⟩
    cases happly

end CampaignRules.Patch
