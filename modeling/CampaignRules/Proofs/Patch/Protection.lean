import CampaignRules.Proofs.Patch.Changes

/-! # Protected fields and patches

A patch is checked on the text of its pointers, and it is carried out on their tokens. The two agree
on the first token, the field of the document that the pointer leads into, and an operation changes
no other field. So a patch that passes the check leaves every protected field as it was. -/

namespace CampaignRules.Patch

/-- An object that holds at a field what the document held there. -/
def Keeps (field : Bytes) (document after : Json) : Prop :=
  after.isObject ∧ after.get? field = document.get? field

/-- The path names a place inside a field other than the given one. -/
def Avoids (field path : Bytes) : Prop :=
  path ≠ [] ∧ topField path ≠ field

variable {field path entityType : Bytes} {index : Nat} {document middle after : Json}

theorem Keeps.refl (hobject : document.isObject) : Keeps field document document :=
  ⟨hobject, rfl⟩

theorem Keeps.trans (h : Keeps field document middle) (h' : Keeps field middle after) :
    Keeps field document after :=
  ⟨h'.1, h'.2.trans h.2⟩

/-- The first token of a pointer is the field that its text leads into. -/
theorem exists_tokens {pointer : Json.Pointer} (hpath : path ≠ [])
    (hparse : Json.Pointer.parse path = .ok pointer) : ∃ rest, pointer = topField path :: rest := by
  cases path with
  | nil => exact absurd rfl hpath
  | cons b rest =>
      rw [Json.Pointer.parse] at hparse
      split at hparse
      · cases hparse
        rw [Bytes.splitOn_eq]
        exact ⟨_, rfl⟩
      · cases hparse

theorem exists_tokens_pointerOf {pointer : Json.Pointer} (hpath : path ≠ [])
    (hpointer : pointerOf index path = .ok pointer) : ∃ rest, pointer = topField path :: rest :=
  exists_tokens hpath (parse_of_pointerOf hpointer)

/-- The path names the field itself. -/
def Names (field path : Bytes) : Prop :=
  Json.Pointer.parse path = .ok [field]

instance : Decidable (Names field path) :=
  decidable_of_iff ((Json.Pointer.parse path).toOption = some [field]) (by
    rw [Names]
    cases Json.Pointer.parse path <;> simp [Except.toOption])

/-- A path into the field names the field itself, or a place in what the field holds. -/
theorem parent_eq_or_inside {parent : Json.Pointer} {name : Bytes} (hpath : path ≠ [])
    (htop : topField path = field) (hparent : parentAndName index path = .ok (parent, name)) :
    Names field path ∧ parent = [] ∧ name = field ∨ ∃ rest, parent = field :: rest := by
  have hparse := parentAndName_eq_ok_iff.1 hparent
  obtain ⟨rest, hpointer⟩ := exists_tokens hpath hparse
  rw [htop] at hpointer
  cases parent with
  | nil =>
      cases hpointer
      exact .inl ⟨hparse, rfl, rfl⟩
  | cons first tokens =>
      cases hpointer
      exact .inr ⟨tokens, rfl⟩

/-- A change at a place inside another field keeps the field. -/
theorem keeps_changeAt {token : Bytes} {rest : Json.Pointer} {change : Json → Except Error Json}
    (hobject : document.isObject) (htoken : token ≠ field)
    (hchange : changeAt index path (token :: rest) change document = .ok after) :
    Keeps field document after := by
  obtain ⟨_, -, hrest⟩ := bind_eq_ok.1 hchange
  obtain ⟨inner, -, heq⟩ := bind_eq_ok.1 hrest
  cases heq
  cases document with
  | object members => exact ⟨rfl, Json.Members.get?_set_ne htoken.symm inner members⟩
  | _ => cases hobject

/-- A change of what holds the place keeps the field if it does so wherever the document itself
holds the place. -/
theorem keeps_parentChange {parent : Json.Pointer} {name : Bytes} {change : Json → Except Error Json}
    (hobject : document.isObject) (havoids : Avoids field path)
    (hparent : parentAndName index path = .ok (parent, name))
    (htop : name ≠ field → change document = .ok after → Keeps field document after)
    (hchange : changeAt index path parent change document = .ok after) :
    Keeps field document after := by
  rcases parent_eq_or_inside havoids.1 rfl hparent with ⟨-, rfl, rfl⟩ | ⟨rest, rfl⟩
  · exact htop havoids.2 hchange
  · exact keeps_changeAt hobject havoids.2 hchange

theorem keeps_addAt {value : Json} (hobject : document.isObject) (havoids : Avoids field path)
    (hadd : addAt index path value document = .ok after) : Keeps field document after := by
  obtain ⟨⟨parent, name⟩, hparent, hchange⟩ := bind_eq_ok.1 hadd
  refine keeps_parentChange hobject havoids hparent (fun hname hinsert => ?_) hchange
  cases document with
  | object members =>
      cases hinsert
      exact ⟨rfl, Json.Members.get?_set_ne hname.symm value members⟩
  | _ => cases hobject

theorem keeps_removeAt (hobject : document.isObject) (havoids : Avoids field path)
    (hremove : removeAt index path document = .ok after) : Keeps field document after := by
  obtain ⟨⟨parent, name⟩, hparent, hchange⟩ := bind_eq_ok.1 hremove
  refine keeps_parentChange hobject havoids hparent (fun hname herase => ?_) hchange
  cases document with
  | object members =>
      rw [eraseFrom] at herase
      split at herase
      · cases herase
        exact ⟨rfl, Json.Members.get?_erase_ne hname.symm members⟩
      · cases herase
  | _ => cases hobject

theorem keeps_replaceAt {value : Json} (hobject : document.isObject) (havoids : Avoids field path)
    (hreplace : replaceAt index path value document = .ok after) : Keeps field document after := by
  obtain ⟨pointer, hpointer, hafter⟩ := bind_eq_ok.1 hreplace
  obtain ⟨rest, rfl⟩ := exists_tokens_pointerOf havoids.1 hpointer
  exact keeps_changeAt hobject havoids.2 hafter

theorem PlaceChange.keeps (h : PlaceChange path document after) (hobject : document.isObject)
    (havoids : Avoids field path) : Keeps field document after := by
  cases h with
  | added hadd => exact keeps_addAt hobject havoids hadd
  | removed hremove => exact keeps_removeAt hobject havoids hremove
  | replaced hreplace => exact keeps_replaceAt hobject havoids hreplace

/-- Changes at places in other fields only keep the field. -/
theorem Changed.keeps {places : List Bytes} (h : Changed places document after)
    (hobject : document.isObject) (havoids : ∀ place ∈ places, Avoids field place) :
    Keeps field document after := by
  induction h with
  | refl => exact .refl hobject
  | tail _ hlast ih =>
      obtain ⟨place, hmem, hchange⟩ := hlast
      exact ih.trans (hchange.keeps ih.1 (havoids place hmem))

theorem keeps_applyFrom {operations : List Operation}
    (havoids : ∀ operation ∈ operations, ∀ place ∈ operation.changedPlaces, Avoids field place)
    (hobject : document.isObject) (happly : (applyFrom index document operations).outcome = .ok after) :
    Keeps field document after := by
  refine (changed_applyFrom happly).keeps hobject fun place hmem => ?_
  obtain ⟨operation, hoperation, hplace⟩ := List.mem_flatMap.1 hmem
  exact havoids operation hoperation place hplace

theorem pathFault?_eq_none_iff : pathFault? entityType path = none ↔
    (path ≠ [] ∧ path ≠ "/") ∧ isPointerText path ∧ topField path ∉ protectedFields ∧
      topField path ∉ protectedFieldsFor entityType := by
  have hcheck : ∀ (c : Prop) [Decidable c] (fault : PathFault) (rest : Option PathFault),
      (if c then some fault else rest) = none ↔ ¬c ∧ rest = none := by
    intro c _ fault rest
    by_cases hc : c <;> simp [hc]
  simp only [pathFault?, hcheck, Bool.or_eq_true, List.isEmpty_iff, decide_eq_true_eq, not_or,
    Bool.not_eq_true', Bool.not_eq_false, List.contains_iff_mem, and_true]

theorem avoids_of_pathFault?_eq_none (hfault : pathFault? entityType path = none)
    (hfield : field ∈ protectedFields ++ protectedFieldsFor entityType) : Avoids field path := by
  obtain ⟨⟨hroot, -⟩, -, hcommon, htype⟩ := pathFault?_eq_none_iff.1 hfault
  refine ⟨hroot, ?_⟩
  rintro rfl
  rcases List.mem_append.1 hfield with hmem | hmem
  · exact hcommon hmem
  · exact htype hmem

theorem pathFault?_of_checkPath {role : Role} (hfaults : (checkPath entityType role path).1 = []) :
    pathFault? entityType path = none := by
  rw [checkPath] at hfaults
  split at hfaults
  · cases hfaults
  · assumption

theorem pathFault?_of_checkSource {kind : Kind} {members : Json.Members} {source : Bytes}
    (hkind : kind.needsSource)
    (hsource : (Json.Members.get? "from" members).bind Json.text? = some source)
    (hfaults : (checkSource entityType kind path members).1 = []) :
    pathFault? entityType source = none := by
  rw [checkSource, if_pos hkind, Json.bind_text?_eq_some_iff.1 hsource] at hfaults
  exact pathFault?_of_checkPath (List.append_eq_nil_iff.1 hfaults).1

/-- In an operation without faults no place is at fault. -/
theorem pathFault?_of_checkOperation {wire : Json} {operation : Operation}
    (hfaults : (checkOperation entityType wire).1 = [])
    (hread : Operation.ofJson index wire = .ok operation) :
    ∀ place ∈ operation.places, pathFault? entityType place = none := by
  cases wire with
  | object members =>
      rw [Operation.ofJson] at hread
      rw [checkOperation] at hfaults
      split at hread
      case h_2 => cases hread
      case h_1 name hop =>
        rw [hop] at hfaults
        split at hread
        case h_1 => cases hread
        case h_2 kind hkind =>
          simp only [hkind] at hfaults
          split at hread
          case h_2 => cases hread
          case h_1 path hpath =>
            rw [hpath] at hfaults
            simp only [List.append_eq_nil_iff] at hfaults
            obtain ⟨⟨-, htargetFaults⟩, hsourceFaults⟩ := hfaults
            have htarget := pathFault?_of_checkPath htargetFaults
            simp only at hread
            split at hread
            all_goals cases hread
            case h_5 source hsource | h_6 source hsource =>
              have hfrom := pathFault?_of_checkSource rfl hsource hsourceFaults
              simp [Operation.places, htarget, hfrom]
            all_goals simp [Operation.places, htarget]
  | _ => cases hread

theorem pathFault?_of_ofOperations {wires : List Json} : ∀ {index : Nat} {operations : List Operation},
    (Check.ofOperations entityType index wires).problems = [] →
      readFrom index wires = .ok operations →
      ∀ operation ∈ operations, ∀ place ∈ operation.places, pathFault? entityType place = none := by
  induction wires with
  | nil =>
      intro index operations _ hread
      cases hread
      simp
  | cons wire rest ih =>
      intro index operations hvalid hread
      obtain ⟨operation, later, hfirst, hlater, rfl⟩ := readFrom_cons_eq_ok_iff.1 hread
      simp only [Check.ofOperations, List.append_eq_nil_iff, List.map_eq_nil_iff] at hvalid
      exact List.forall_mem_cons.2 ⟨pathFault?_of_checkOperation hvalid.1 hfirst, ih hvalid.2 hlater⟩

/-- A patch that is carried out was read as operations, no place of which is at fault. -/
theorem exists_operations {payload : Json} {applied : Applied}
    (happly : (apply document payload entityType).outcome = .ok applied) :
    ∃ operations, readFrom 0 (payload.items?.getD []) = .ok operations ∧
      (∀ operation ∈ operations, ∀ place ∈ operation.places, pathFault? entityType place = none) ∧
      (applyFrom 0 document operations).outcome = .ok applied.document := by
  obtain ⟨hvalid, operations, hread, hrun, -⟩ := apply_eq_ok_iff.1 happly
  refine ⟨operations, hread, ?_, hrun⟩
  cases payload with
  | array wires => exact pathFault?_of_ofOperations (List.isEmpty_iff.1 hvalid) hread
  | _ => cases hvalid

/-- A patch that is carried out keeps the protected fields, those of the type included. -/
theorem keeps_apply {payload : Json} {applied : Applied} (hobject : document.isObject)
    (hfield : field ∈ protectedFields ++ protectedFieldsFor entityType)
    (happly : (apply document payload entityType).outcome = .ok applied) :
    Keeps field document applied.document := by
  obtain ⟨operations, -, hfaults, hrun⟩ := exists_operations happly
  refine keeps_applyFrom (fun operation hmem place hplace => ?_) hobject hrun
  exact avoids_of_pathFault?_eq_none
    (hfaults operation hmem place (operation.changedPlaces_subset hplace)) hfield

end CampaignRules.Patch
