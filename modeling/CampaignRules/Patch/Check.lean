import CampaignRules.Json.Pointer
import CampaignRules.Patch.Operation

/-! # Checking a patch

The wire form of a patch is checked before anything is changed. No operation may name the root of
the document, a malformed pointer or a protected field, neither as its place nor as its source. -/

namespace CampaignRules.Patch

/-- The fields that no patch may touch. -/
def protectedFields : List Bytes :=
  ["id", "createdAt", "updatedAt", "deletedAt", "version"]

/-- The fields by which entities of a type refer to others. -/
def protectedFieldsFor (entityType : Bytes) : List Bytes :=
  if entityType = "SETTLEMENT" then ["campaignId", "kingdomId", "locationId"]
  else if entityType = "STRUCTURE" then ["settlementId"]
  else if entityType = "KINGDOM" then ["campaignId"]
  else if entityType = "ENCOUNTER" then ["campaignId", "eventId"]
  else if entityType = "EVENT" then ["campaignId", "encounterId"]
  else []

/-- A slash and then tokens in which every tilde begins an escape. -/
def isPointerText (path : Bytes) : Bool :=
  path.head? = some Json.Pointer.slash && Json.Pointer.isEscaped path

/-- The field of the document that a path leads into. -/
def topField (path : Bytes) : Bytes :=
  Json.Pointer.unescape (Bytes.cutAt Json.Pointer.slash (path.drop 1)).1

def pathFault? (entityType path : Bytes) : Option PathFault :=
  let top := topField path
  if path.isEmpty || path = "/" then some .emptyOrRoot
  else if !isPointerText path then some (.notPointer path)
  else if protectedFields.contains top then some (.guarded path top)
  else if (protectedFieldsFor entityType).contains top then
    some (.guardedForType path top entityType)
  else none

/-- What is found at one path: a fault, or a caution if it leads outside the variables. -/
def checkPath (entityType : Bytes) (role : Role) (path : Bytes) : List Fault × List Caution :=
  match pathFault? entityType path with
  | some fault => ([.path role fault], [])
  | none => ([], if topField path = "variables" then [] else [.outsideVariables role path])

/-- The path leads to a place inside what the source names. -/
def isInside (path source : Bytes) : Bool :=
  (source ++ [Json.Pointer.slash]).isPrefixOf path

/-- The fields that an operation may have. -/
def knownFields : List Bytes :=
  ["op", "path", "value", "from"]

/-- What is found at the source of an operation of the given kind and path. -/
def checkSource (entityType : Bytes) (kind : Kind) (path : Bytes) (members : Json.Members) :
    List Fault × List Caution :=
  if kind.needsSource then
    match Json.Members.get? "from" members with
    | none => ([.missingSource kind], [])
    | some (.string source) =>
      let (faults, cautions) := checkPath entityType .source source
      (faults ++ (if kind = .move && isInside path source then [.intoOwnChild] else []), cautions)
    | some _ => ([.sourceNotText], [])
  else ([], [])

def checkOperation (entityType : Bytes) (wire : Json) : List Fault × List Caution :=
  match wire with
  | .object members =>
    match Json.Members.get? "op" members with
    | some (.string name) =>
      match Kind.ofName? name with
      | none => ([.unknownKind name], [])
      | some kind =>
        match Json.Members.get? "path" members with
        | none => ([.missingPath], [])
        | some (.string path) =>
          let noValue := kind.needsValue && !Json.Members.contains "value" members
          let (pathFaults, pathCautions) := checkPath entityType .target path
          let (sourceFaults, sourceCautions) := checkSource entityType kind path members
          let unknown := (Json.Members.keys members).filter fun key => !knownFields.contains key
          ((if noValue then [.missingValue kind] else []) ++ pathFaults ++ sourceFaults,
            pathCautions ++ sourceCautions ++ unknown.map .unknownField)
        | some _ => ([.pathNotText], [])
    | _ => ([.missingKind], [])
  | _ => ([.notObject], [])

structure Check where
  problems : List Problem
  warnings : List Warning

namespace Check

def isValid (check : Check) : Bool :=
  check.problems.isEmpty

def toJson (check : Check) : Json :=
  .ofMembers [("valid", check.isValid), ("errors", .ofTexts (check.problems.map Problem.message)),
    ("warnings", .ofTexts (check.warnings.map Warning.message))]

/-- Checks operations, the first of which has the given position. -/
def ofOperations (entityType : Bytes) : Nat → List Json → Check
  | _, [] => ⟨[], []⟩
  | index, wire :: rest =>
    let (faults, cautions) := checkOperation entityType wire
    let later := ofOperations entityType (index + 1) rest
    ⟨faults.map (.operation index) ++ later.problems, cautions.map (⟨index, ·⟩) ++ later.warnings⟩

end Check

/-- Everything that is wrong with a patch for an entity of the given type. -/
def check (payload : Json) (entityType : Bytes) : Check :=
  match payload with
  | .array operations => .ofOperations entityType 0 operations
  | _ => ⟨[.notArray], []⟩

end CampaignRules.Patch
