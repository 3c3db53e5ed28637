import CampaignRules.Bytes

/-! # What can be wrong with a patch

A patch is checked as a whole, and every problem found is reported with the position of its
operation. Reading a single operation stops at its first fault. -/

namespace CampaignRules.Patch

/-- The kinds of operation. -/
inductive Kind where
  | add
  | remove
  | replace
  | copy
  | move
  | test
  deriving DecidableEq

namespace Kind

def all : List Kind :=
  [.add, .remove, .replace, .copy, .move, .test]

def name : Kind → Bytes
  | .add => "add"
  | .remove => "remove"
  | .replace => "replace"
  | .copy => "copy"
  | .move => "move"
  | .test => "test"

def ofName? (name : Bytes) : Option Kind :=
  all.find? fun kind => kind.name = name

def needsValue : Kind → Bool
  | .add | .replace | .test => true
  | _ => false

def needsSource : Kind → Bool
  | .copy | .move => true
  | _ => false

end Kind

/-- The place that an operation changes, or the place that it takes a value from. -/
inductive Role where
  | target
  | source

inductive PathFault where
  | emptyOrRoot
  | notPointer (path : Bytes)
  | guarded (path field : Bytes)
  | guardedForType (path field entityType : Bytes)

def PathFault.message : PathFault → Bytes
  | .emptyOrRoot => "path cannot be empty or root"
  | .notPointer path => path.quoted ++ " is not a valid JSON pointer"
  | .guarded path field =>
    "path " ++ path.quoted ++ " is not allowed: " ++ field.quoted ++ " is a protected field"
  | .guardedForType path field entityType =>
    "path " ++ path.quoted ++ " is not allowed: " ++ field.quoted ++
      " is a protected field for " ++ entityType

inductive Fault where
  | notObject
  | missingKind
  | unknownKind (name : Bytes)
  | missingPath
  | pathNotText
  | missingValue (kind : Kind)
  | missingSource (kind : Kind)
  | sourceNotText
  | path (role : Role) (fault : PathFault)
  | intoOwnChild

inductive Problem where
  | notArray
  | operation (index : Nat) (fault : Fault)

def operationText (index : Nat) : Bytes :=
  "Operation " ++ Bytes.decimal index

def Fault.message : Fault → Bytes
  | .notObject => ": must be an object"
  | .missingKind => ": missing \"op\" field"
  | .unknownKind name =>
    ": invalid operation type " ++ name.quoted ++ ". Must be one of: " ++
      Bytes.join ", " (Kind.all.map Kind.name)
  | .missingPath => ": missing \"path\" field"
  | .pathNotText => ": \"path\" must be a string"
  | .missingValue kind => ": " ++ kind.name.quoted ++ " requires a \"value\" field"
  | .missingSource kind => ": " ++ kind.name.quoted ++ " requires a \"from\" field"
  | .sourceNotText => ": \"from\" must be a string"
  | .path .target fault => ": " ++ fault.message
  | .path .source fault => " source: " ++ fault.message
  | .intoOwnChild => ": cannot move a value into one of its children"

def Problem.message : Problem → Bytes
  | .notArray => "Patch must be an array of operations"
  | .operation index fault => operationText index ++ fault.message

/-- What a patch may do although it hardly means to. -/
inductive Caution where
  | outsideVariables (role : Role) (path : Bytes)
  | unknownField (key : Bytes)

structure Warning where
  index : Nat
  caution : Caution

def Caution.message : Caution → Bytes
  | .outsideVariables .target path => ": path " ++ path.quoted ++ " is outside /variables/"
  | .outsideVariables .source path => " source: path " ++ path.quoted ++ " is outside /variables/"
  | .unknownField key => ": unknown field " ++ key.quoted ++ " ignored"

def Warning.message (w : Warning) : Bytes :=
  operationText w.index ++ w.caution.message

inductive ReadFault where
  | notObject
  | missingKind
  | unknownKind (name : Bytes)
  | missingPath
  | missingValue (kind : Kind)
  | missingSource (kind : Kind)

def ReadFault.message : ReadFault → Bytes
  | .notObject => "must be an object"
  | .missingKind => "missing \"op\" field"
  | .unknownKind name => "unknown operation " ++ name.quoted
  | .missingPath => "missing \"path\" field"
  | .missingValue kind => kind.name ++ " requires \"value\""
  | .missingSource kind => kind.name ++ " requires \"from\""

end CampaignRules.Patch
