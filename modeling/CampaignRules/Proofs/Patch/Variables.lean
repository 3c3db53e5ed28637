import CampaignRules.Patch.Variables
import CampaignRules.Proofs.Json.Pointer
import CampaignRules.Proofs.Patch.Protection

/-! # Places inside variables

A place is inside a variable if its path goes on after the name of one. The name that is cut out of
the text of the path is then the second token of the pointer that the text spells. A change at such a
place depends on that variable and on nothing else in the document, and it changes nothing else. -/

namespace CampaignRules

namespace Patch

open Json (Members)

variable {name : Bytes} {document : Json}

/-- The variables of the document are in an object. -/
def HasVariables (document : Json) : Prop :=
  ∃ held, document.get? "variables" = some (.object held)

/-- The value of a variable, if there is one. -/
def variableValue? (name : Bytes) (document : Json) : Option Json :=
  Members.get? name (variablesOf document)

/-- Puts the value in the slot into a variable, or takes the variable away if the slot is empty. -/
def putVariable (name : Bytes) (slot : Option Json) (document : Json) : Json :=
  document.set "variables" (.object (Members.put name slot (variablesOf document)))

theorem HasVariables.get?_eq (h : HasVariables document) :
    document.get? "variables" = some (.object (variablesOf document)) := by
  obtain ⟨held, hheld⟩ := h
  rw [variablesOf, hheld]

theorem HasVariables.isObject (h : HasVariables document) : document.isObject := by
  obtain ⟨held, hheld⟩ := h
  cases document with
  | object members => rfl
  | _ => cases hheld

theorem HasVariables.congr {after : Json} (h : HasVariables document)
    (hget : after.get? "variables" = document.get? "variables") : HasVariables after :=
  ⟨_, hget.trans h.get?_eq⟩

theorem variablesOf_congr {after : Json} (hget : after.get? "variables" = document.get? "variables") :
    variablesOf after = variablesOf document := by
  rw [variablesOf, variablesOf, hget]

variable (name) (slot : Option Json)

theorem get?_putVariable_self (h : HasVariables document) :
    (putVariable name slot document).get? "variables" =
      some (.object (Members.put name slot (variablesOf document))) :=
  Json.get?_set_self h.isObject _ _

theorem hasVariables_putVariable (h : HasVariables document) :
    HasVariables (putVariable name slot document) :=
  ⟨_, get?_putVariable_self name slot h⟩

theorem variablesOf_putVariable (h : HasVariables document) :
    variablesOf (putVariable name slot document) = Members.put name slot (variablesOf document) := by
  rw [variablesOf, get?_putVariable_self name slot h]

theorem variableValue?_putVariable (h : HasVariables document) (found : Bytes) :
    variableValue? found (putVariable name slot document) =
      if found = name then slot else variableValue? found document := by
  rw [variableValue?, variablesOf_putVariable name slot h, Members.get?_put]
  rfl

theorem get?_putVariable_ne {field : Bytes} (hne : field ≠ "variables") :
    (putVariable name slot document).get? field = document.get? field :=
  Json.get?_set_ne hne document _

variable {name slot} {path : Bytes} {index : Nat}

theorem exists_tail_of_variableOf (hname : variableOf path ≠ []) :
    ∃ tail, path = Json.Pointer.slash :: (Bytes.ofString "variables" ++ Json.Pointer.slash :: tail) ∧
      variableOf path = Json.Pointer.unescape (Bytes.cutAt Json.Pointer.slash tail).1 := by
  rw [variableOf] at hname
  split at hname
  · rename_i hprefix
    obtain ⟨tail, htail⟩ := List.isPrefixOf_iff_prefix.1 hprefix
    refine ⟨tail, htail.symm.trans rfl, ?_⟩
    rw [variableOf, if_pos hprefix, ← htail, List.drop_left]
  · exact absurd rfl hname

/-- The name cut out of the text is the second token of the pointer. -/
theorem pointer_eq_of_variableOf {pointer : Json.Pointer} (hname : variableOf path ≠ [])
    (hpointer : pointerOf index path = .ok pointer) :
    ∃ rest, pointer = Bytes.ofString "variables" :: variableOf path :: rest := by
  obtain ⟨tail, hpath, hvariable⟩ := exists_tail_of_variableOf hname
  have hcut : Bytes.cutAt Json.Pointer.slash
      (Bytes.ofString "variables" ++ Json.Pointer.slash :: tail) =
      (Bytes.ofString "variables", some tail) := Bytes.cutAt_append (by decide) tail
  have hparse := parse_of_pointerOf hpointer
  rw [hpath, Json.Pointer.parse] at hparse
  split at hparse
  · cases hparse
    rw [Bytes.splitOn_eq, hcut, hvariable]
    dsimp only [Option.map_some, Option.getD_some]
    rw [Bytes.splitOn_eq]
    exact ⟨_, rfl⟩
  · cases hparse

theorem parentAndName_eq {first : Bytes} {rest : Json.Pointer}
    (hpointer : pointerOf index path = .ok (first :: rest)) :
    parentAndName index path =
      .ok ((first :: rest).dropLast, (first :: rest).getLast (List.cons_ne_nil _ _)) := by
  rw [parentAndName_eq_ok_iff, List.dropLast_concat_getLast]
  exact parse_of_pointerOf hpointer

/-- The change looks at one variable of the document and fills its slot anew. -/
def ActsOn (name : Bytes) (change : Json → Except Error Json) : Prop :=
  ∃ act : Option Json → Except Error (Option Json), ∀ document, HasVariables document →
    change document =
      (act (variableValue? name document)).map fun slot => putVariable name slot document

theorem ActsOn.congr {change other : Json → Except Error Json} (h : ActsOn name change)
    (heq : ∀ document, other document = change document) : ActsOn name other := by
  obtain ⟨act, hact⟩ := h
  exact ⟨act, fun document hdocument => (heq document).trans (hact document hdocument)⟩

theorem actsOn_error (e : Error) : ActsOn name fun _ => .error e :=
  ⟨fun _ => .error e, fun _ _ => rfl⟩

theorem child_eq {token : Bytes} {inner : Json} (hget : document.get? token = some inner) :
    Json.Pointer.child token document = .ok inner := by
  cases document with
  | object members => exact Json.Pointer.child_object_eq_ok_iff.2 hget
  | _ => cases hget

/-- A slot that holds a value is filled anew; an empty one is an error. -/
def refill (missing : Error) (change : Json → Except Error (Option Json)) :
    Option Json → Except Error (Option Json)
  | some value => change value
  | none => .error missing

/-- A change of the object of variables acts on a variable if it changes that one only. -/
theorem actsOn_changeAt_variables (change : Json → Except Error Json)
    (act : Option Json → Except Error (Option Json))
    (hact : ∀ held, change (.object held) =
      (act (Members.get? name held)).map fun slot => .object (Members.put name slot held)) :
    ActsOn name (changeAt index path [Bytes.ofString "variables"] change) := by
  refine ⟨act, fun document h => ?_⟩
  have hinner : change (.object (variablesOf document)) = (act (variableValue? name document)).map
      fun slot => .object (Members.put name slot (variablesOf document)) := hact _
  rw [changeAt, Json.updateAt, child_eq h.get?_eq]
  show (change (.object (variablesOf document)) >>= fun inner => _) = _
  rw [hinner]
  obtain ⟨members, rfl⟩ : ∃ members, document = .object members := by
    cases document with
    | object members => exact ⟨members, rfl⟩
    | _ => cases h.isObject
  cases act (variableValue? name (.object members)) <;> rfl

/-- So does a change of anything inside the variable. -/
theorem actsOn_changeAt (change : Json → Except Error Json) (rest : Json.Pointer) :
    ActsOn name (changeAt index path (Bytes.ofString "variables" :: name :: rest) change) := by
  let lift := fun failure => notFound index path (.lookup failure)
  refine actsOn_changeAt_variables (fun held => held.updateAt lift change (name :: rest))
    (refill (lift .outOfRange) fun value => (value.updateAt lift change rest).map some) fun held => ?_
  cases hget : Members.get? name held with
  | none =>
      simp only [Json.updateAt, Json.Pointer.child, hget]
      rfl
  | some value =>
      simp only [Json.updateAt, Json.Pointer.child, hget]
      show (value.updateAt lift change rest >>= fun inner => _) =
        ((value.updateAt lift change rest).map some).map _
      cases value.updateAt lift change rest <;> rfl

/-- A change of what holds a place inside a variable acts on the variable, if it does so where the
object of variables itself holds the place. -/
theorem actsOn_parentChange (change : Bytes → Json → Except Error Json)
    (act : Option Json → Except Error (Option Json)) (hname : variableOf path ≠ [])
    (hact : ∀ held, change (variableOf path) (.object held) =
      (act (Members.get? (variableOf path) held)).map fun slot =>
        .object (Members.put (variableOf path) slot held)) :
    ActsOn (variableOf path) fun document => (do
      let (parent, last) ← parentAndName index path
      changeAt index path parent (change last) document) := by
  cases hpointer : pointerOf index path with
  | error e => exact (actsOn_error e).congr fun document => by rw [parentAndName, hpointer]; rfl
  | ok pointer =>
      obtain ⟨rest, rfl⟩ := pointer_eq_of_variableOf hname hpointer
      rw [parentAndName_eq hpointer]
      cases rest with
      | nil => exact actsOn_changeAt_variables _ act hact
      | cons next rest => exact actsOn_changeAt _ (next :: rest).dropLast

theorem actsOn_addAt (value : Json) (hname : variableOf path ≠ []) :
    ActsOn (variableOf path) (addAt index path value) :=
  actsOn_parentChange (insertInto index path · value) (fun _ => .ok (some value)) hname fun _ => rfl

theorem actsOn_removeAt (hname : variableOf path ≠ []) :
    ActsOn (variableOf path) (removeAt index path) := by
  refine actsOn_parentChange (eraseFrom index path)
    (refill (notFound index path .absent) fun _ => .ok none) hname fun held => ?_
  rw [eraseFrom, Members.contains]
  cases Members.get? (variableOf path) held <;> rfl

theorem actsOn_replaceAt (value : Json) (hname : variableOf path ≠ []) :
    ActsOn (variableOf path) (replaceAt index path value) := by
  cases hpointer : pointerOf index path with
  | error e => exact (actsOn_error e).congr fun document => by rw [replaceAt, hpointer]; rfl
  | ok pointer =>
      obtain ⟨rest, rfl⟩ := pointer_eq_of_variableOf hname hpointer
      exact (actsOn_changeAt (fun _ => .ok value) rest).congr fun document => by
        rw [replaceAt, hpointer]
        rfl

/-- What is found at a place inside a variable depends on the variable only. -/
theorem valueAt_congr {other : Json} (hname : variableOf path ≠ []) (h : HasVariables document)
    (hother : HasVariables other)
    (hvalue : variableValue? (variableOf path) other = variableValue? (variableOf path) document) :
    valueAt index path other = valueAt index path document := by
  cases hpointer : pointerOf index path with
  | error e => rw [valueAt, valueAt, hpointer]; rfl
  | ok pointer =>
      obtain ⟨rest, rfl⟩ := pointer_eq_of_variableOf hname hpointer
      have hat : other.at? (Bytes.ofString "variables" :: variableOf path :: rest) =
          document.at? (Bytes.ofString "variables" :: variableOf path :: rest) := by
        have hslot : Members.get? (variableOf path) (variablesOf other) =
          Members.get? (variableOf path) (variablesOf document) := hvalue
        simp only [Json.at?, child_eq h.get?_eq, child_eq hother.get?_eq]
        show (Json.Pointer.child _ (.object (variablesOf other)) >>= fun v => _) =
          (Json.Pointer.child _ (.object (variablesOf document)) >>= fun v => _)
        simp only [Json.Pointer.child, hslot]
      rw [valueAt, valueAt, hpointer]
      show (other.at? _).mapError _ = (document.at? _).mapError _
      rw [hat]

end Patch

end CampaignRules
