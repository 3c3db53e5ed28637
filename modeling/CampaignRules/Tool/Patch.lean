import CampaignRules.Tool.Basic

/-! # Tools for patches -/

namespace CampaignRules.Tool

def payloadParameter : Parameter where
  name := "payload"
  type := some "array"
  description := "RFC 6902 operations"
  isRequired := true

def entityTypeParameter : Parameter where
  name := "entityType"
  type := some "string"
  description := "Target entity type (optional)"

def validatePatch : Tool where
  name := "validate_patch"
  description := "Check a JSON Patch payload before it is stored on an effect. Protected " ++
    "fields and malformed pointers are errors; unknown fields are warnings."
  parameters := [payloadParameter, entityTypeParameter]
  run _ arguments := do
    let entityType := textArgumentOrEmpty "entityType" arguments
    let check := Patch.check (← .ofExcept (valueArgument "payload" arguments)) entityType
    let heading : Bytes := if check.isValid then "Patch is valid" else "Patch is invalid"
    return .ok (heading ++ itemLines "error: " (check.problems.map Patch.Problem.message) ++
      itemLines "warning: " (check.warnings.map Patch.Warning.message)) check.toJson

def previewHeading (preview : Patch.Preview) : Bytes :=
  match preview.after with
  | some applied =>
    "Patch applies: " ++ Bytes.decimal applied.diff.added.length ++ " added, " ++
      Bytes.decimal applied.diff.modified.length ++ " modified, " ++
      Bytes.decimal applied.diff.removed.length ++ " removed"
  | none => "Patch fails"

def previewPatch : Tool where
  name := "preview_patch"
  description :=
    "Apply a patch to a copy of a document and report the result and variable diff."
  parameters :=
    [{ name := "document", type := some "object", description := "Entity document",
       isRequired := true },
     payloadParameter, entityTypeParameter]
  run _ arguments := do
    let entityType := textArgumentOrEmpty "entityType" arguments
    let document ← .ofExcept (valueArgument "document" arguments)
    let payload ← .ofExcept (valueArgument "payload" arguments)
    let preview ← .ofLogged (Patch.preview document payload entityType)
    let content := previewHeading preview ++ itemLines "error: " preview.errors ++
      itemLines "warning: " preview.warnings
    return ⟨preview.after.isNone, content, preview.toJson⟩

def patchTools : List Tool :=
  [validatePatch, previewPatch]

end CampaignRules.Tool
