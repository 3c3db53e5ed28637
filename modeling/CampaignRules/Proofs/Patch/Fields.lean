import CampaignRules.Proofs.Json.Members
import CampaignRules.Proofs.Patch.Failure
import CampaignRules.Proofs.Patch.Protection

/-! # Fields put as a whole

An operation puts something else into a field of the document if one of its paths names the field
itself. At a place further inside, the field holds a container, and it goes on to hold a container of
the same kind, whatever is done there. So what a field may hold after a patch is bounded by what the
operations put into it. -/

namespace CampaignRules.Patch

variable {field path name : Bytes} {index : Nat} {document after value v w : Json}
  {puts allowed : Option Json → Prop}

/-- Both are objects, or both are arrays. -/
def SameContainer (v w : Json) : Prop :=
  v.isObject ∧ w.isObject ∨ v.isArray ∧ w.isArray

theorem sameContainer_replaceChild {token : Bytes} {inner : Json}
    (hchild : Json.Pointer.child token v = .ok inner) (value : Json) :
    SameContainer v (Json.Pointer.replaceChild token value v) := by
  cases v with
  | object members => exact .inl ⟨rfl, rfl⟩
  | array items =>
      refine .inr ⟨rfl, ?_⟩
      rw [Json.Pointer.replaceChild]
      split <;> rfl
  | _ => cases hchild

theorem sameContainer_updateAt {lift : Json.Failure → Error} {change : Json → Except Error Json}
    {pointer : Json.Pointer} (hchange : pointer = [] → change v = .ok w → SameContainer v w)
    (hupdate : v.updateAt lift change pointer = .ok w) : SameContainer v w := by
  cases pointer with
  | nil => exact hchange rfl hupdate
  | cons token rest =>
      obtain ⟨inner, hinner, hrest⟩ := bind_eq_ok.1 hupdate
      obtain ⟨changed, -, heq⟩ := bind_eq_ok.1 hrest
      cases heq
      exact sameContainer_replaceChild (mapError_eq_ok.1 hinner) changed

theorem sameContainer_insertInto (hinsert : insertInto index path name value v = .ok w) :
    SameContainer v w := by
  cases v with
  | object members =>
      cases hinsert
      exact .inl ⟨rfl, rfl⟩
  | array items =>
      rw [insertInto] at hinsert
      split at hinsert
      · cases hinsert
        exact .inr ⟨rfl, rfl⟩
      · obtain ⟨position, -, hrest⟩ := bind_eq_ok.1 hinsert
        split at hrest
        · split at hrest
          · cases hrest
            exact .inr ⟨rfl, rfl⟩
          · cases hrest
        · cases hrest
  | _ => cases hinsert

theorem sameContainer_eraseFrom (herase : eraseFrom index path name v = .ok w) :
    SameContainer v w := by
  cases v with
  | object members =>
      rw [eraseFrom] at herase
      split at herase
      · cases herase
        exact .inl ⟨rfl, rfl⟩
      · cases herase
  | array items =>
      obtain ⟨position, -, hrest⟩ := bind_eq_ok.1 herase
      split at hrest
      · split at hrest
        · cases hrest
          exact .inr ⟨rfl, rfl⟩
        · cases hrest
      · cases hrest
  | _ => cases herase

/-- What a change at a place may do to a field: leave it, put something into it as a whole, or change
the container that it holds. -/
inductive SlotChange (puts : Option Json → Prop) : Option Json → Option Json → Prop where
  | kept (slot : Option Json) : SlotChange puts slot slot
  | put (slot : Option Json) {filled : Option Json} (hputs : puts filled) : SlotChange puts slot filled
  | inside {v w : Json} (hsame : SameContainer v w) : SlotChange puts (some v) (some w)

/-- An object stays an object, and its field changes. -/
def FieldChange (puts : Option Json → Prop) (field : Bytes) (document after : Json) : Prop :=
  after.isObject ∧ SlotChange puts (document.get? field) (after.get? field)

theorem FieldChange.of_keeps (h : Keeps field document after) : FieldChange puts field document after :=
  ⟨h.1, h.2 ▸ .kept _⟩

/-- A change in what the field holds. -/
theorem fieldChange_changeAt {rest : Json.Pointer} {change : Json → Except Error Json}
    (hobject : document.isObject)
    (hsame : ∀ v w, rest = [] → change v = .ok w → SameContainer v w)
    (hchange : changeAt index path (field :: rest) change document = .ok after) :
    FieldChange puts field document after := by
  obtain ⟨inner, hinner, hrest⟩ := bind_eq_ok.1 hchange
  obtain ⟨changed, hchanged, heq⟩ := bind_eq_ok.1 hrest
  cases heq
  cases document with
  | object members =>
      rw [Json.Pointer.child] at hinner
      split at hinner
      · rename_i held hheld
        cases hinner
        have hbefore : (Json.object members).get? field = some inner := hheld
        have hafter : (Json.Pointer.replaceChild field changed (.object members)).get? field =
            some changed := Json.get?_set_self (v := .object members) rfl field changed
        refine ⟨rfl, ?_⟩
        rw [hbefore, hafter]
        exact .inside (sameContainer_updateAt (hsame _ _) hchanged)
      · cases hinner
  | _ => cases hobject

theorem fieldChange_addAt (hobject : document.isObject) (hpath : path ≠ [])
    (hadd : addAt index path value document = .ok after) :
    FieldChange (fun slot => Names field path ∧ slot = some value) field document after := by
  by_cases htop : topField path = field
  · obtain ⟨⟨parent, name⟩, hparent, hchange⟩ := bind_eq_ok.1 hadd
    rcases parent_eq_or_inside hpath htop hparent with ⟨hnames, rfl, rfl⟩ | ⟨rest, rfl⟩
    · cases document with
      | object members =>
          cases hchange
          exact ⟨rfl, .put _ ⟨hnames, Json.get?_set_self (v := .object members) rfl name value⟩⟩
      | _ => cases hobject
    · exact fieldChange_changeAt hobject (fun _ _ _ => sameContainer_insertInto) hchange
  · exact .of_keeps (keeps_addAt hobject ⟨hpath, htop⟩ hadd)

theorem fieldChange_removeAt (hobject : document.isObject) (hpath : path ≠ [])
    (hremove : removeAt index path document = .ok after) :
    FieldChange (fun slot => Names field path ∧ slot = none) field document after := by
  by_cases htop : topField path = field
  · obtain ⟨⟨parent, name⟩, hparent, hchange⟩ := bind_eq_ok.1 hremove
    rcases parent_eq_or_inside hpath htop hparent with ⟨hnames, rfl, rfl⟩ | ⟨rest, rfl⟩
    · cases document with
      | object members =>
          change eraseFrom index path name (.object members) = .ok after at hchange
          rw [eraseFrom] at hchange
          split at hchange
          · cases hchange
            refine ⟨rfl, .put _ ⟨hnames, ?_⟩⟩
            exact (Json.Members.get?_erase name name members).trans (if_pos rfl)
          · cases hchange
      | _ => cases hobject
    · exact fieldChange_changeAt hobject (fun _ _ _ => sameContainer_eraseFrom) hchange
  · exact .of_keeps (keeps_removeAt hobject ⟨hpath, htop⟩ hremove)

theorem fieldChange_replaceAt (hobject : document.isObject) (hpath : path ≠ [])
    (hreplace : replaceAt index path value document = .ok after) :
    FieldChange (fun slot => Names field path ∧ slot = some value) field document after := by
  obtain ⟨pointer, hpointer, hchange⟩ := bind_eq_ok.1 hreplace
  obtain ⟨rest, rfl⟩ := exists_tokens_pointerOf hpath hpointer
  by_cases htop : topField path = field
  · subst htop
    cases rest with
    | nil =>
        -- the change is of the field itself, and may put any value there
        obtain ⟨_, -, hrest⟩ := bind_eq_ok.1 hchange
        obtain ⟨changed, hchanged, heq⟩ := bind_eq_ok.1 hrest
        cases hchanged
        cases heq
        cases document with
        | object members =>
            exact ⟨rfl, .put _ ⟨parse_of_pointerOf hpointer,
              Json.get?_set_self (v := .object members) rfl _ value⟩⟩
        | _ => cases hobject
    | cons next rest =>
        exact fieldChange_changeAt hobject (fun _ _ hnil => by cases hnil) hchange
  · exact .of_keeps (keeps_changeAt hobject htop hchange)

/-- A document that is an object, with something in the field that is allowed there. -/
def Holds (allowed : Option Json → Prop) (field : Bytes) (document : Json) : Prop :=
  document.isObject ∧ allowed (document.get? field)

/-- What is allowed of a container does not depend on what is in it. -/
def IgnoresContents (allowed : Option Json → Prop) : Prop :=
  ∀ v w, SameContainer v w → allowed (some v) → allowed (some w)

theorem Holds.of_fieldChange (h : Holds allowed field document) (hcontents : IgnoresContents allowed)
    (hchange : FieldChange puts field document after) (hputs : ∀ slot, puts slot → allowed slot) :
    Holds allowed field after := by
  obtain ⟨hobject, hslot⟩ := hchange
  have hallowed : ∀ {slot filled : Option Json}, SlotChange puts slot filled → allowed slot →
      allowed filled := by
    intro slot filled hslot hheld
    cases hslot with
    | kept => exact hheld
    | put _ hput => exact hputs _ hput
    | inside hsame => exact hcontents _ _ hsame hheld
  exact ⟨hobject, hallowed hslot h.2⟩

/-- The operation may put this into the field as a whole. The value that is copied or moved there is
one of the document, and not known beforehand. -/
def Operation.Puts (field : Bytes) (slot : Option Json) : Operation → Prop
  | .add path value | .replace path value => Names field path ∧ slot = some value
  | .remove path => Names field path ∧ slot = none
  | .copy _ path => Names field path ∧ slot.isSome
  | .move source path =>
    source ≠ path ∧ (Names field source ∧ slot = none ∨ Names field path ∧ slot.isSome)
  | .test .. => False

/-- Whatever the operations of the patch put into the field as a whole is allowed there. -/
def PutsOnly (allowed : Option Json → Prop) (field : Bytes) (payload : Json) : Prop :=
  ∀ operation ∈ operationsOf payload, ∀ slot, operation.Puts field slot → allowed slot

theorem Holds.of_operation {operation : Operation} (h : Holds allowed field document)
    (hcontents : IgnoresContents allowed) (hplaces : ∀ place ∈ operation.places, place ≠ [])
    (hputs : ∀ slot, operation.Puts field slot → allowed slot)
    (happly : operation.apply index document = .ok after) : Holds allowed field after := by
  cases operation with
  | add path value =>
      have hpath := hplaces path List.mem_cons_self
      exact h.of_fieldChange hcontents (fieldChange_addAt h.1 hpath happly) hputs
  | remove path =>
      have hpath := hplaces path List.mem_cons_self
      exact h.of_fieldChange hcontents (fieldChange_removeAt h.1 hpath happly) hputs
  | replace path value =>
      have hpath := hplaces path List.mem_cons_self
      exact h.of_fieldChange hcontents (fieldChange_replaceAt h.1 hpath happly) hputs
  | copy source path =>
      have hpath := hplaces path (List.mem_cons_of_mem _ List.mem_cons_self)
      obtain ⟨value, -, hadd⟩ := bind_eq_ok.1 happly
      refine h.of_fieldChange hcontents (fieldChange_addAt h.1 hpath hadd) ?_
      rintro _ ⟨hnames, rfl⟩
      exact hputs _ ⟨hnames, rfl⟩
  | move source path =>
      have hsource := hplaces source List.mem_cons_self
      have hpath := hplaces path (List.mem_cons_of_mem _ List.mem_cons_self)
      rw [Operation.apply] at happly
      split at happly
      · cases happly
        exact h
      · rename_i hne
        obtain ⟨value, -, hmove⟩ := bind_eq_ok.1 happly
        obtain ⟨middle, hremove, hadd⟩ := bind_eq_ok.1 hmove
        have hmiddle : Holds allowed field middle :=
          h.of_fieldChange hcontents (fieldChange_removeAt h.1 hsource hremove)
            fun slot hput => hputs slot ⟨hne, .inl hput⟩
        refine hmiddle.of_fieldChange hcontents (fieldChange_addAt hmiddle.1 hpath hadd) ?_
        rintro _ ⟨hnames, rfl⟩
        exact hputs _ ⟨hne, .inr ⟨hnames, rfl⟩⟩
  | test path value =>
      obtain ⟨actual, -, htest⟩ := bind_eq_ok.1 happly
      split at htest
      · cases htest
        exact h
      · cases htest

theorem Holds.of_applyFrom (hcontents : IgnoresContents allowed) {operations : List Operation} :
    ∀ {index : Nat} {document : Json}, Holds allowed field document →
      (∀ operation ∈ operations, ∀ place ∈ operation.places, place ≠ []) →
      (∀ operation ∈ operations, ∀ slot, operation.Puts field slot → allowed slot) →
      (applyFrom index document operations).outcome = .ok after → Holds allowed field after := by
  induction operations with
  | nil =>
      intro index document h _ _ happly
      cases happly
      exact h
  | cons operation rest ih =>
      intro index document h hplaces hputs happly
      rw [List.forall_mem_cons] at hplaces hputs
      obtain ⟨middle, hfirst, hrest⟩ := applyFrom_cons_eq_ok_iff.1 happly
      exact ih (h.of_operation hcontents hplaces.1 hputs.1 hfirst) hplaces.2 hputs.2 hrest

/-- A patch that puts only what is allowed into a field leaves something there that is allowed. -/
theorem Holds.of_apply {payload : Json} {entityType : Bytes} {applied : Applied}
    (h : Holds allowed field document) (hcontents : IgnoresContents allowed)
    (hputs : PutsOnly allowed field payload)
    (happly : (apply document payload entityType).outcome = .ok applied) :
    Holds allowed field applied.document := by
  obtain ⟨operations, hread, hfaults, hrun⟩ := exists_operations happly
  rw [PutsOnly, operationsOf_eq hread] at hputs
  refine .of_applyFrom hcontents h (fun operation hmem place hplace => ?_) hputs hrun
  exact (pathFault?_eq_none_iff.1 (hfaults operation hmem place hplace)).1.1

end CampaignRules.Patch
