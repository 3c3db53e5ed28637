import CampaignRules.Json.Parser
import CampaignRules.Patch.Problem

/-! # Errors

An error is the cause of a failure; its message is worded here and nowhere else. Most causes have a
kind, which is reported beside the message. Those without one are failures of a JSON operation, of
a number conversion, or of code that a caller supplied. -/

namespace CampaignRules

/-- How many arguments an operator takes. -/
structure Arity where
  least : Nat
  most : Option Nat

namespace Arity

def admits (arity : Arity) (count : Nat) : Bool :=
  arity.least ≤ count && arity.most.all (count ≤ ·)

def text (arity : Arity) : Bytes :=
  match arity.most with
  | none => "at least " ++ Bytes.decimal arity.least
  | some most =>
    if most = arity.least then Bytes.decimal most
    else Bytes.decimal arity.least ++ "-" ++ Bytes.decimal most

end Arity

/-- Operands that an operator cannot work on; types are given by name. -/
inductive TypeMismatch where
  | notNumeric (type : Bytes)
  | incomparable (left right : Bytes)
  | unordered (left right : Bytes)
  | operand (operator : Bytes) (shown : Bytes)
  | notSearchable (type : Bytes)
  | customFailed (operator : Bytes) (reason : Bytes)

def TypeMismatch.message : TypeMismatch → Bytes
  | .notNumeric type => "Cannot convert " ++ type ++ " to a number"
  | .incomparable left right =>
    "Cannot compare " ++ left ++ " with " ++ right ++ " using loose equality"
  | .unordered left right => "Cannot order " ++ left ++ " and " ++ right
  | .operand operator shown =>
    "Operator " ++ operator ++ " expects numeric operands, got " ++ shown
  | .notSearchable type => "Operator in expects a string or array, got " ++ type
  | .customFailed operator reason => "Operator " ++ operator ++ " failed: " ++ reason

/-- Expressions that are not well formed. -/
inductive Malformed where
  | tooDeep (limit : Nat)
  | keyCount (count : Nat)
  | pathType (type : Bytes)
  | varArguments (count : Nat)
  | arity (operator : Bytes) (expected : Arity) (count : Nat)
  | noRequiredCount
  | noRequiredNames

def Malformed.message : Malformed → Bytes
  | .tooDeep limit => "Expression nesting exceeds " ++ Bytes.decimal limit ++ " levels"
  | .keyCount count =>
    "Expression object must have exactly one operator key, found " ++ Bytes.decimal count
  | .pathType type => "var path must be a string or an integer index, got " ++ type
  | .varArguments count =>
    "var takes a path and an optional default, got " ++ Bytes.decimal count ++ " arguments"
  | .arity operator expected count =>
    "Operator " ++ operator ++ " expects " ++ expected.text ++ " argument(s), got " ++
      Bytes.decimal count
  | .noRequiredCount => "missing_some expects a required count first"
  | .noRequiredNames => "missing_some expects an array of names second"

/-- Records that cannot be read. -/
inductive RecordFault where
  | notObject (record : Bytes)
  | missingText (record key : Bytes)
  | notNumber (key : Bytes)
  | notBoolean (key : Bytes)
  | notText (key : Bytes)
  | unknownTiming (effect timing : Bytes)
  | variablesNotObject (owner : Bytes)

def RecordFault.message : RecordFault → Bytes
  | .notObject record => record ++ " record must be an object"
  | .missingText record key => record ++ " missing string field " ++ key.quoted
  | .notNumber key => "field " ++ key.quoted ++ " must be a number"
  | .notBoolean key => "field " ++ key.quoted ++ " must be a boolean"
  | .notText key => "field " ++ key.quoted ++ " must be a string"
  | .unknownTiming effect timing => "Effect " ++ effect ++ " has unknown timing " ++ timing.quoted
  | .variablesNotObject owner => "Entity " ++ owner ++ " variables must be an object"

/-- Snapshots that cannot be opened or loaded. -/
inductive StorageFault where
  | cannotOpen (path : Bytes)
  | databaseUnsupported (path : Bytes)
  | notJson (path : Bytes) (failure : Json.Failure)
  | notObject
  | unsupportedFormat (shown : Bytes)
  | notArray (field : Bytes)
  | other (message : Bytes)

def StorageFault.message : StorageFault → Bytes
  | .cannotOpen path => "Cannot open snapshot " ++ path
  | .databaseUnsupported path => "Cannot open database " ++ path ++ ": not supported"
  | .notJson path failure => "Snapshot " ++ path ++ " is not valid JSON: " ++ failure.message
  | .notObject => "Snapshot must be a JSON object"
  | .unsupportedFormat shown => "Unsupported snapshot format " ++ shown
  | .notArray field => "Snapshot field " ++ field.quoted ++ " must be an array"
  | .other message => message

/-- Entities that cannot be resolved. -/
inductive ResolutionFault where
  | alreadyResolved (id : Bytes)
  | alreadyCompleted (id : Bytes)
  | cyclicWrite (effect : Bytes)

def ResolutionFault.message : ResolutionFault → Bytes
  | .alreadyResolved id => "Encounter with ID " ++ id ++ " is already resolved"
  | .alreadyCompleted id => "Event with ID " ++ id ++ " is already completed"
  | .cyclicWrite effect => "Effect " ++ effect ++ " is part of a cyclic write chain"

/-- Custom operators that are not accepted. -/
inductive RegistrationFault where
  | emptyName
  | standardName (name : Bytes)
  | noImplementation (name : Bytes)

def RegistrationFault.message : RegistrationFault → Bytes
  | .emptyName => "Custom operator name cannot be empty"
  | .standardName name => "Cannot override standard operator: " ++ name
  | .noImplementation name => "Custom operator " ++ name ++ " has no implementation"

/-- Why a pointer leads nowhere: a lookup fails, a position is out of range, the parent holds
nothing, or there is no such member. -/
inductive PathDetail where
  | lookup (failure : Json.Failure)
  | indexOutOfRange
  | parentNotContainer
  | absent

def PathDetail.message : PathDetail → Bytes
  | .lookup failure => failure.message
  | .indexOutOfRange => "array index out of range"
  | .parentNotContainer => "parent is not a container"
  | .absent => ""

inductive ErrorKind where
  | unknownOperator
  | typeMismatch
  | malformedExpression
  | invalidPatchSyntax
  | patchTestFailed
  | pathNotFound
  | recordNotFound
  | resolutionFailed
  | storage
  | invalidRecord
  deriving DecidableEq

def ErrorKind.name : ErrorKind → Bytes
  | .unknownOperator => "UnknownOperatorError"
  | .typeMismatch => "TypeMismatchError"
  | .malformedExpression => "MalformedExpressionError"
  | .invalidPatchSyntax => "InvalidPatchSyntaxError"
  | .patchTestFailed => "PatchTestFailedError"
  | .pathNotFound => "PathNotFoundError"
  | .recordNotFound => "RecordNotFoundError"
  | .resolutionFailed => "ResolutionFailedError"
  | .storage => "StorageError"
  | .invalidRecord => "InvalidRecordError"

inductive Error where
  | unknownOperator (name : Bytes)
  | typeMismatch (cause : TypeMismatch)
  | malformedExpression (cause : Malformed)
  | invalidPatch (problems : List Patch.Problem)
  | unreadableOperation (index : Nat) (fault : Patch.ReadFault)
  | unreadablePointer (index : Nat) (failure : Json.Failure)
  | patchTestFailed (index : Nat) (path : Bytes)
  | pathNotFound (index : Nat) (path : Bytes) (detail : PathDetail)
  | recordNotFound (message : Bytes)
  | resolutionFailed (cause : ResolutionFault)
  | storage (cause : StorageFault)
  | invalidRecord (cause : RecordFault)
  /-- a JSON operation outside the places that report it otherwise -/
  | json (failure : Json.Failure)
  /-- an array position that does not fit into 64 bits -/
  | oversizedIndex
  | registration (fault : RegistrationFault)
  | unknownTool (name : Bytes)
  /-- a failure of code that a caller supplied -/
  | external (message : Bytes)

namespace Error

def kind? : Error → Option ErrorKind
  | .unknownOperator _ => some .unknownOperator
  | .typeMismatch _ => some .typeMismatch
  | .malformedExpression _ => some .malformedExpression
  | .invalidPatch _ | .unreadableOperation .. | .unreadablePointer .. => some .invalidPatchSyntax
  | .patchTestFailed .. => some .patchTestFailed
  | .pathNotFound .. => some .pathNotFound
  | .recordNotFound _ => some .recordNotFound
  | .resolutionFailed _ => some .resolutionFailed
  | .storage _ => some .storage
  | .invalidRecord _ => some .invalidRecord
  | .json _ | .oversizedIndex | .registration _ | .unknownTool _ | .external _ => none

/-- The full wording. -/
def text : Error → Bytes
  | .unknownOperator name => "Unrecognized operation " ++ name
  | .typeMismatch cause => cause.message
  | .malformedExpression cause => cause.message
  | .invalidPatch problems => Bytes.join "; " (problems.map Patch.Problem.message)
  | .unreadableOperation index fault => Patch.operationText index ++ ": " ++ fault.message
  | .unreadablePointer index failure => Patch.operationText index ++ ": " ++ failure.message
  | .patchTestFailed index path =>
    "Test operation " ++ Bytes.decimal index ++ " failed at " ++ path
  | .pathNotFound index path detail =>
    let reason : Bytes := if detail.message.isEmpty then "" else " (" ++ detail.message ++ ")"
    Patch.operationText index ++ ": path " ++ path ++ " not found" ++ reason
  | .recordNotFound message => message
  | .resolutionFailed cause => cause.message
  | .storage cause => cause.message
  | .invalidRecord cause => cause.message
  | .json failure => failure.message
  | .oversizedIndex => "stoull"
  | .registration fault => fault.message
  | .unknownTool name => "Unknown tool: " ++ name
  | .external message => message

/-- The wording as it is reported, which ends at the first NUL. -/
def message (e : Error) : Bytes :=
  e.text.beforeNul

end Error

/-- A failure as it is reported. -/
structure Report where
  kind : ErrorKind
  message : Bytes

/-- A report on one line, the kind first. -/
def Report.line (r : Report) : Bytes :=
  r.kind.name ++ ": " ++ r.message

/-- An error with a kind can be reported. -/
def Error.report? (e : Error) : Option Report :=
  e.kind?.map fun kind => ⟨kind, e.message⟩

end CampaignRules
