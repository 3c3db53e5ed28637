import CampaignRules.Json.Equality
import CampaignRules.Log
import CampaignRules.Patch.Check
import CampaignRules.Patch.Diff

/-! # Applying a patch

The operations of a patch are carried out in order, each on the document that the one before it
left. The first that fails makes the whole patch fail, and the document stays what it was. -/

namespace CampaignRules.Patch

/-- The position that a token names in an array: decimal digits without a leading zero. -/
def arrayPosition? (token : Bytes) : Except Error (Option Nat) :=
  if token.isEmpty || !token.all Bytes.isDigit then .ok none
  else if token.length > 1 && token.head? = some '0'.toUInt8 then .ok none
  else
    let n := Bytes.decimalValue token
    if n < power 2 64 then .ok (some n) else .error .oversizedIndex

section

variable (index : Nat) (path : Bytes)

def notFound (detail : PathDetail) : Error :=
  .pathNotFound index path detail

def pointerOf : Except Error Json.Pointer :=
  (Json.Pointer.parse path).mapError (.unreadablePointer index)

theorem parse_of_pointerOf {index : Nat} {path : Bytes} {pointer : Json.Pointer}
    (hpointer : pointerOf index path = .ok pointer) : Json.Pointer.parse path = .ok pointer :=
  mapError_eq_ok.1 hpointer

/-- The pointer to what holds the place, and the token that names it there. -/
def parentAndName : Except Error (Json.Pointer × Bytes) := do
  let pointer ← pointerOf index path
  match pointer.getLast? with
  | some name => return (pointer.dropLast, name)
  | none => .error (notFound index path (.lookup .outOfRange))

def valueAt (document : Json) : Except Error Json := do
  let pointer ← pointerOf index path
  (document.at? pointer).mapError fun failure => notFound index path (.lookup failure)

/-- Changes what holds the place, or the place itself. -/
def changeAt (pointer : Json.Pointer) (change : Json → Except Error Json) (document : Json) :
    Except Error Json :=
  document.updateAt (fun failure => notFound index path (.lookup failure)) change pointer

/-- Puts a value into a container; in an array it moves the later items up, or comes last. -/
def insertInto (name : Bytes) (value : Json) : Json → Except Error Json
  | .object members => .ok (.object (Json.Members.set name value members))
  | .array items =>
    if name = "-" then .ok (.array (items ++ [value]))
    else do
      match ← arrayPosition? name with
      | some n =>
        if n ≤ items.length then return .array (items.insertIdx n value)
        else .error (notFound index path .indexOutOfRange)
      | none => .error (notFound index path .indexOutOfRange)
  | _ => .error (notFound index path .parentNotContainer)

def eraseFrom (name : Bytes) : Json → Except Error Json
  | .object members =>
    if Json.Members.contains name members then .ok (.object (Json.Members.erase name members))
    else .error (notFound index path .absent)
  | .array items => do
    match ← arrayPosition? name with
    | some n =>
      if n < items.length then return .array (items.eraseIdx n)
      else .error (notFound index path .indexOutOfRange)
    | none => .error (notFound index path .indexOutOfRange)
  | _ => .error (notFound index path .parentNotContainer)

def addAt (value : Json) (document : Json) : Except Error Json := do
  let (parent, name) ← parentAndName index path
  changeAt index path parent (insertInto index path name value) document

def removeAt (document : Json) : Except Error Json := do
  let (parent, name) ← parentAndName index path
  changeAt index path parent (eraseFrom index path name) document

def replaceAt (value : Json) (document : Json) : Except Error Json := do
  let pointer ← pointerOf index path
  changeAt index path pointer (fun _ => .ok value) document

end

/-- Carries out an operation at the given position of its patch. Moving a value to where it is
leaves the document alone. -/
def Operation.apply (index : Nat) (document : Json) : Operation → Except Error Json
  | .add path value => addAt index path value document
  | .remove path => removeAt index path document
  | .replace path value => replaceAt index path value document
  | .copy source path => do
    let value ← valueAt index source document
    addAt index path value document
  | .move source path =>
    if source = path then .ok document
    else do
      let value ← valueAt index source document
      let document ← removeAt index source document
      addAt index path value document
  | .test path value => do
    let actual ← valueAt index path document
    if actual.equal value then return document else .error (.patchTestFailed index path)

def appliedEvent (index : Nat) (operation : Operation) : Log.Event :=
  Log.debug "patch" ["op ", Bytes.decimal index, " ", operation.kind.name, " ", operation.path,
    " ok"]

/-- Carries out operations, the first of which has the given position. -/
def applyFrom : Nat → Json → List Operation → Logged Json
  | _, document, [] => return document
  | index, document, operation :: rest => do
    let document ← .ofExcept (operation.apply index document)
    .record (appliedEvent index operation)
    applyFrom (index + 1) document rest

/-- Reads the operations of a patch, the first of which has the given position. -/
def readFrom : Nat → List Json → Except Error (List Operation)
  | _, [] => .ok []
  | index, wire :: rest => do
    let operation ← Operation.ofJson index wire
    return operation :: (← readFrom (index + 1) rest)

structure Applied where
  document : Json
  diff : Diff

/-- Checks a patch and carries it out on a document. -/
def apply (document payload : Json) (entityType : Bytes) : Logged Applied := do
  let found := check payload entityType
  if found.isValid then
    let operations ← .ofExcept (readFrom 0 (payload.items?.getD []))
    let after ← applyFrom 0 document operations
    return ⟨after, .between document after⟩
  else Recorded.fail (.invalidPatch found.problems)

/-- Carries out a patch on variables alone, which it addresses as those of a document. -/
def applyToVariables (held payload : Json) : Logged Applied := do
  let held := if held.isObject then held else .object []
  let applied ← apply (.object [("variables", held)]) payload []
  return { applied with document := .ofOption (applied.document.get? "variables") }

/-- What a patch would do to a document. -/
structure Preview where
  before : Json
  after : Option Applied
  errors : List Bytes
  warnings : List Bytes

def Preview.toJson (preview : Preview) : Json :=
  let diff := (preview.after.map Applied.diff).getD .empty
  .ofMembers [("success", preview.after.isSome), ("before", preview.before),
    ("after", .ofOption (preview.after.map Applied.document)), ("diff", diff.toJson),
    ("changedFields", .ofTexts diff.changedFields), ("errors", .ofTexts preview.errors),
    ("warnings", .ofTexts preview.warnings)]

/-- A failure with a kind becomes an error of the preview. -/
def preview (document payload : Json) (entityType : Bytes) : Logged Preview :=
  let found := check payload entityType
  let warnings := found.warnings.map Warning.message
  if found.isValid then
    let run := apply document payload entityType
    let outcome : Except Error Preview :=
      match run.outcome with
      | .ok applied => .ok ⟨document, some applied, [], warnings⟩
      | .error e =>
        match e.report? with
        | some report => .ok ⟨document, none, [report.line], warnings⟩
        | none => .error e
    ⟨run.entries, outcome⟩
  else return ⟨document, none, found.problems.map Problem.message, warnings⟩

end CampaignRules.Patch
