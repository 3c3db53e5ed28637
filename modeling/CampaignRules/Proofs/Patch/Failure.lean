import CampaignRules.Proofs.Failure
import CampaignRules.Proofs.Patch.Changes

/-! # Failures of patches

A patch fails because its wire form is at fault, because a test fails or because a place is not
found. One failure is none of these: a position in an array is read as a word, and a numeral that
does not fit into one ends the patch with an error that has no kind. Only an operation that puts an
item into an array or takes one out reads a position, so the last tokens of the places where it does
so tell beforehand whether this can happen. -/

namespace CampaignRules.Patch

/-- The kinds of failure that a patch has. -/
def failureKinds : List ErrorKind :=
  [.invalidPatchSyntax, .patchTestFailed, .pathNotFound]

/-- A numeral that would be a position in an array, but for its size. -/
def isOversized (token : Bytes) : Bool :=
  token.all Bytes.isDigit && token.head? ≠ some '0'.toUInt8 && power 2 64 ≤ Bytes.decimalValue token

/-- The path names a place by an oversized position. -/
def endsOversized (path : Bytes) : Bool :=
  (Json.Pointer.parse path).toOption.any fun pointer => pointer.getLast?.any isOversized

/-- The places where an operation puts something into a container or takes something out. -/
def Operation.slots : Operation → List Bytes
  | .add path _ | .remove path | .copy _ path => [path]
  | .move source path => [source, path]
  | .replace .. | .test .. => []

/-- The operations of a patch, none if it cannot be read. -/
def operationsOf (payload : Json) : List Operation :=
  (readFrom 0 (payload.items?.getD [])).toOption.getD []

theorem operationsOf_eq {payload : Json} {operations : List Operation}
    (hread : readFrom 0 (payload.items?.getD []) = .ok operations) :
    operationsOf payload = operations := by
  rw [operationsOf, hread]
  rfl

/-- All positions that the patch puts something at or takes something from fit into a word. -/
def fitsWords (payload : Json) : Bool :=
  (operationsOf payload).all fun operation => operation.slots.all fun slot => !endsOversized slot

/-- What can happen to operations with the given places: a failure of one of the kinds, or an
oversized position at one of the places. -/
def Mishap (slots : List Bytes) (e : Error) : Prop :=
  (∃ kind ∈ failureKinds, e.kind? = some kind) ∨
    e = .oversizedIndex ∧ ∃ slot ∈ slots, endsOversized slot

variable {index : Nat} {path name : Bytes} {slots : List Bytes}

theorem Mishap.mono {slots more : List Bytes} (hsub : slots ⊆ more) {e : Error}
    (h : Mishap slots e) : Mishap more e := by
  rcases h with hkind | ⟨heq, slot, hmem, hover⟩
  · exact .inl hkind
  · exact .inr ⟨heq, slot, hsub hmem, hover⟩

theorem Mishap.invalid {e : Error} (hkind : e.kind? = some .invalidPatchSyntax) : Mishap slots e :=
  .inl ⟨.invalidPatchSyntax, by decide, hkind⟩

/-- A numeral is no position only if it is too large. -/
theorem arrayPosition?_fails {token : Bytes} :
    FailsOnly (fun e => e = .oversizedIndex ∧ isOversized token) (arrayPosition? token) := by
  unfold arrayPosition?
  split
  · exact .ok none
  · rename_i hdigits
    split
    · exact .ok none
    · rename_i hleading
      dsimp only
      split
      · exact .ok _
      · rename_i hlarge
        simp only [Bool.or_eq_true, not_or, Bool.not_eq_true', Bool.not_eq_false] at hdigits
        have hzero : token.head? ≠ some '0'.toUInt8 := by
          intro hhead
          obtain ⟨rest, rfl⟩ := List.head?_eq_some_iff.1 hhead
          cases rest with
          | nil => exact hlarge (by decide)
          | cons b rest => simp at hleading
        exact .error ⟨rfl, by simp [isOversized, hdigits.2, hzero, Nat.le_of_not_lt hlarge]⟩

/-- The bound covers what can go wrong with a place that is looked up. -/
structure Covers (P : Error → Prop) (index : Nat) (path : Bytes) : Prop where
  pointer : FailsOnly P (pointerOf index path)
  notFound : ∀ detail, P (notFound index path detail)

/-- The token that names a place is the last one of its path. -/
theorem endsOversized_of_parentAndName {parent : Json.Pointer}
    (hparent : parentAndName index path = .ok (parent, name)) (hover : isOversized name) :
    endsOversized path := by
  have hparse := parentAndName_eq_ok_iff.1 hparent
  simp [endsOversized, hparse, Except.toOption, hover]

theorem failsOnly_updateAt {P : Error → Prop} {lift : Json.Failure → Error}
    {change : Json → Except Error Json} (hlift : ∀ failure, P (lift failure))
    (hchange : ∀ v, FailsOnly P (change v)) (pointer : Json.Pointer) :
    ∀ v : Json, FailsOnly P (v.updateAt lift change pointer) := by
  induction pointer with
  | nil => exact hchange
  | cons token rest ih =>
      exact fun v => (FailsOnly.mapError hlift).bind fun inner => (ih inner).bind fun _ => .ok _

namespace Covers

variable {P : Error → Prop} {value document : Json} (h : Covers P index path)

include h

theorem parentAndName : FailsOnly P (parentAndName index path) := by
  refine h.pointer.bind fun pointer => ?_
  split
  · exact .ok _
  · exact .error (h.notFound _)

theorem valueAt : FailsOnly P (valueAt index path document) :=
  h.pointer.bind fun _ => .mapError fun _ => h.notFound _

theorem replaceAt : FailsOnly P (replaceAt index path value document) :=
  h.pointer.bind fun pointer => failsOnly_updateAt (fun _ => h.notFound _) (fun _ => .ok value) pointer _

/-- A change of what holds a place has no other failures than the operation at the place if at most an
oversized name is at fault. -/
theorem parentChange (hover : endsOversized path → P .oversizedIndex)
    (change : Bytes → Json → Except Error Json)
    (hchange : ∀ name v, FailsOnly (fun e => P e ∨ e = .oversizedIndex ∧ isOversized name)
      (change name v)) :
    FailsOnly P (do
      let (parent, name) ← Patch.parentAndName index path
      changeAt index path parent (change name) document) := by
  refine h.parentAndName.bind_of_ok fun (parent, name) hparent => ?_
  refine failsOnly_updateAt (fun _ => h.notFound _) (fun v => (hchange name v).mono ?_) parent _
  rintro e (hcovered | ⟨rfl, hname⟩)
  · exact hcovered
  · exact hover (endsOversized_of_parentAndName hparent hname)

theorem addAt (hover : endsOversized path → P .oversizedIndex) :
    FailsOnly P (addAt index path value document) := by
  refine h.parentChange hover (insertInto index path · value) fun name v => ?_
  cases v with
  | object members => exact .ok _
  | array items =>
      refine .ite (.ok _) ((arrayPosition?_fails.mono fun _ => .inr).bind fun found => ?_)
      cases found with
      | some n => exact .ite (.ok _) (.error (.inl (h.notFound _)))
      | none => exact .error (.inl (h.notFound _))
  | _ => exact .error (.inl (h.notFound _))

theorem removeAt (hover : endsOversized path → P .oversizedIndex) :
    FailsOnly P (removeAt index path document) := by
  refine h.parentChange hover (eraseFrom index path) fun name v => ?_
  cases v with
  | object members => exact .ite (.ok _) (.error (.inl (h.notFound _)))
  | array items =>
      refine (arrayPosition?_fails.mono fun _ => .inr).bind fun found => ?_
      cases found with
      | some n => exact .ite (.ok _) (.error (.inl (h.notFound _)))
      | none => exact .error (.inl (h.notFound _))
  | _ => exact .error (.inl (h.notFound _))

end Covers

/-- An operation fails within a bound that covers its places, oversized positions where it changes a
container, and a failing test. -/
theorem failsOnly_operation {P : Error → Prop} {operation : Operation}
    (hplaces : ∀ place ∈ operation.places, Covers P index place)
    (hslots : ∀ slot ∈ operation.slots, endsOversized slot → P .oversizedIndex)
    (htest : ∀ path, P (.patchTestFailed index path)) (document : Json) :
    FailsOnly P (operation.apply index document) := by
  cases operation with
  | add path value =>
      exact (hplaces path List.mem_cons_self).addAt (hslots path List.mem_cons_self)
  | remove path =>
      exact (hplaces path List.mem_cons_self).removeAt (hslots path List.mem_cons_self)
  | replace path value => exact (hplaces path List.mem_cons_self).replaceAt
  | copy source path =>
      have htarget := hplaces path (List.mem_cons_of_mem _ List.mem_cons_self)
      exact (hplaces source List.mem_cons_self).valueAt.bind fun _ =>
        htarget.addAt (hslots path List.mem_cons_self)
  | move source path =>
      have hsource := hplaces source List.mem_cons_self
      have htarget := hplaces path (List.mem_cons_of_mem _ List.mem_cons_self)
      refine .ite (.ok _) (hsource.valueAt.bind fun value => ?_)
      refine (hsource.removeAt (hslots source List.mem_cons_self)).bind fun _ => ?_
      exact htarget.addAt (hslots path (List.mem_cons_of_mem _ List.mem_cons_self))
  | test path value =>
      refine (hplaces path List.mem_cons_self).valueAt.bind fun _ => ?_
      exact .ite (.ok _) (.error (htest path))

theorem mishap_operation (operation : Operation) (document : Json) :
    FailsOnly (Mishap operation.slots) (operation.apply index document) := by
  refine failsOnly_operation (fun place _ => ⟨.mapError fun _ => .invalid rfl, fun detail => ?_⟩)
    (fun slot hslot hover => .inr ⟨rfl, slot, hslot, hover⟩) (fun path => ?_) document
  · exact .inl ⟨.pathNotFound, by decide, rfl⟩
  · exact .inl ⟨.patchTestFailed, by decide, rfl⟩

theorem failsOnly_applyFrom {P : Error → Prop} {operations : List Operation}
    (hoperations : ∀ operation ∈ operations, ∀ index document,
      FailsOnly P (operation.apply index document)) :
    ∀ (index : Nat) (document : Json), FailsOnly P (applyFrom index document operations).outcome := by
  induction operations with
  | nil => exact fun _ document => .ok document
  | cons operation rest ih =>
      intro index document
      rw [List.forall_mem_cons] at hoperations
      rw [applyFrom, Recorded.outcome_bind]
      exact (hoperations.1 index document).bind fun middle => ih hoperations.2 (index + 1) middle

theorem mishap_applyFrom (operations : List Operation) (index : Nat) (document : Json) :
    FailsOnly (Mishap (operations.flatMap Operation.slots))
      (applyFrom index document operations).outcome := by
  refine failsOnly_applyFrom (fun operation hmem index document => ?_) index document
  exact (mishap_operation operation document).mono fun _ h =>
    h.mono fun slot hslot => List.mem_flatMap.2 ⟨operation, hmem, hslot⟩

theorem mishap_ofJson (wire : Json) : FailsOnly (Mishap slots) (Operation.ofJson index wire) := by
  have hfault : ∀ fault, FailsOnly (Mishap slots)
      (.error (.unreadableOperation index fault) : Except Error Operation) := fun _ =>
    .error (.invalid rfl)
  unfold Operation.ofJson
  split
  case h_2 => exact hfault _
  split
  case h_2 => exact hfault _
  split
  case h_1 => exact hfault _
  split
  case h_2 => exact hfault _
  dsimp only
  split
  case h_7 => exact hfault _
  all_goals exact .ok _

theorem mishap_readFrom (wires : List Json) :
    ∀ index, FailsOnly (Mishap slots) (readFrom index wires) := by
  induction wires with
  | nil => exact fun _ => .ok []
  | cons wire rest ih =>
      exact fun index => (mishap_ofJson wire).bind fun _ => (ih (index + 1)).bind fun _ => .ok _

/-- A patch fails with an error of one of its kinds, or at an oversized position. -/
theorem mishap_apply (document payload : Json) (entityType : Bytes) :
    FailsOnly (Mishap ((operationsOf payload).flatMap Operation.slots))
      (apply document payload entityType).outcome := by
  rw [apply]
  split
  · rw [Recorded.outcome_bind]
    refine (mishap_readFrom _ 0).bind_of_ok fun operations hread => ?_
    rw [Recorded.outcome_bind, operationsOf_eq hread]
    exact (mishap_applyFrom operations 0 document).bind fun _ => .ok _
  · exact .error (.invalid rfl)

/-- What escapes the kinds of failure of a patch. -/
def Escapes (payload : Json) (e : Error) : Prop :=
  e = .oversizedIndex ∧ fitsWords payload = false

/-- An error of a patch has one of its kinds, or it escapes them. -/
theorem failureKind_or_escapes {document payload : Json} {entityType : Bytes} {e : Error}
    (happly : (apply document payload entityType).outcome = .error e) :
    (∃ kind ∈ failureKinds, e.kind? = some kind) ∨ Escapes payload e := by
  rcases mishap_apply document payload entityType e happly with hkind | ⟨heq, slot, hmem, hover⟩
  · exact .inl hkind
  · obtain ⟨operation, hoperation, hslot⟩ := List.mem_flatMap.1 hmem
    refine .inr ⟨heq, ?_⟩
    rw [fitsWords, List.all_eq_false]
    exact ⟨operation, hoperation, by simpa using ⟨slot, hslot, hover⟩⟩

theorem escapes_of_report?_eq_none {document payload : Json} {entityType : Bytes} {e : Error}
    (happly : (apply document payload entityType).outcome = .error e) (hreport : e.report? = none) :
    Escapes payload e := by
  refine (failureKind_or_escapes happly).resolve_left ?_
  rintro ⟨kind, -, hkind⟩
  simp [Error.report?, hkind] at hreport

/-- A preview shows every failure, but for those that escape. -/
theorem escapes_preview (document payload : Json) (entityType : Bytes) :
    FailsOnly (Escapes payload) (preview document payload entityType).outcome := by
  unfold preview
  dsimp only
  split
  · split
    · exact .ok _
    · rename_i e happly
      split
      · exact .ok _
      · rename_i hreport
        exact .error (escapes_of_report?_eq_none happly hreport)
  · exact .ok _

end CampaignRules.Patch
