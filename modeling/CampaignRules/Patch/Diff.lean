import CampaignRules.Json.Equality

/-! # Differences between documents

The variables of a document are the members of its field `variables`. A diff tells which variables
are new, which have another value and which are gone, and which fields of the document differ. -/

namespace CampaignRules.Patch

/-- The variables of a document, none if its field for them holds no object. -/
def variablesOf (document : Json) : Json.Members :=
  match document.get? "variables" with
  | some (.object members) => members
  | _ => []

structure Change where
  old : Json
  new : Json

def Change.toJson (change : Change) : Json :=
  .ofMembers [("old", change.old), ("new", change.new)]

structure Diff where
  added : Json.Members
  modified : List (Bytes × Change)
  removed : List Bytes
  changedFields : List Bytes

namespace Diff

def empty : Diff := ⟨[], [], [], []⟩

def isEmpty (diff : Diff) : Bool :=
  diff.added.isEmpty && diff.modified.isEmpty && diff.removed.isEmpty && diff.changedFields.isEmpty

def toJson (diff : Diff) : Json :=
  .ofMembers [("added", .object diff.added),
    ("modified", .object (diff.modified.map fun (name, change) => (name, change.toJson))),
    ("removed", .ofTexts diff.removed), ("changedFields", .ofTexts diff.changedFields)]

/-- The new value of a variable that had another one. -/
def changeOf (old : Json.Members) (name : Bytes) (value : Json) : Option Change :=
  match Json.Members.get? name old with
  | some before => if before.equal value then none else some ⟨before, value⟩
  | none => none

def fieldDiffers (before after : Json.Members) (key : Bytes) : Bool :=
  match Json.Members.get? key before, Json.Members.get? key after with
  | none, none => false
  | some a, some b => !a.equal b
  | _, _ => true

/-- The fields that differ; documents that are no objects differ as a whole, in the unnamed one. -/
def fieldsChanged (before after : Json) : List Bytes :=
  match before, after with
  | .object a, .object b =>
    let keys := Bytes.unionSorted (Json.Members.keys a) (Json.Members.keys b)
    keys.filter (fieldDiffers a b)
  | _, _ => if before.equal after then [] else [[]]

def between (before after : Json) : Diff :=
  let old := variablesOf before
  let new := variablesOf after
  { added := new.filter fun (name, _) => !Json.Members.contains name old
    modified := new.filterMap fun (name, value) => (changeOf old name value).map (name, ·)
    removed := (Json.Members.keys old).filter fun name => !Json.Members.contains name new
    changedFields := fieldsChanged before after }

end Diff

end CampaignRules.Patch
