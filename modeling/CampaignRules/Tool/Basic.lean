import CampaignRules.Engine

/-! # Tools

A tool is something to ask the engine for, under a name and with named arguments. It answers with a
text to read and, mostly, a value to work with. Arguments are checked for presence before the tool
runs and for their types while it does. -/

namespace CampaignRules

/-- A named argument, as it is announced to callers. -/
structure Tool.Parameter where
  name : Bytes
  /-- the JSON type of its values; with none, any value will do -/
  type : Option Bytes
  description : Bytes
  isRequired : Bool := false
  /-- what else there is to say about its values -/
  details : List (Bytes × Json) := []

structure Tool.Result where
  isError : Bool
  content : Bytes
  /-- null if there is nothing but the content -/
  structured : Json

structure Tool where
  name : Bytes
  description : Bytes
  parameters : List Tool.Parameter
  run : Moment → Json → Task Engine Tool.Result

namespace Tool

def Parameter.schema (p : Parameter) : Json :=
  let members : List (Bytes × Json) := ("description", p.description) :: p.details
  match p.type with
  | some type => .ofMembers (("type", type) :: members)
  | none => .ofMembers members

/-- The names of the arguments that have to be given. -/
def required (tool : Tool) : List Bytes :=
  (tool.parameters.filter (·.isRequired)).map (·.name)

def schema (tool : Tool) : Json :=
  .ofMembers [("type", "object"),
    ("properties", .ofMembers (tool.parameters.map fun p => (p.name, p.schema))),
    ("required", .ofTexts tool.required)]

def toJson (tool : Tool) : Json :=
  .ofMembers [("name", tool.name), ("description", tool.description),
    ("inputSchema", tool.schema)]

namespace Result

def ok (content : Bytes) (structured : Json) : Result :=
  ⟨false, content, structured⟩

def error (content : Bytes) (structured : Json) : Result :=
  ⟨true, content, structured⟩

/-- An error that there is nothing more to say about. -/
def bareError (content : Bytes) : Result :=
  ⟨true, content, .null⟩

end Result

/-- A line for each item, indented and behind a mark. -/
def itemLines (mark : String) (items : List Bytes) : Bytes :=
  items.flatMap fun item => "\n  " ++ Bytes.ofString mark ++ item

/-- The first of some names that has no value, or only null. -/
def missing? (names : List Bytes) (arguments : Json) : Option Bytes :=
  names.find? fun name => ((arguments.get? name).getD .null).isNull

/-- A required text, which has to be one. -/
def textArgument (name : Bytes) (arguments : Json) : Except Error Bytes :=
  match arguments.get? name with
  | some (.string text) => .ok text
  | some _ => .error (.json .wrongType)
  | none => .error (.json .outOfRange)

/-- A required value of any type. -/
def valueArgument (name : Bytes) (arguments : Json) : Except Error Json :=
  match arguments.get? name with
  | some v => .ok v
  | none => .error (.json .outOfRange)

/-- An optional text; whatever is no text counts as the empty one. -/
def textArgumentOrEmpty (name : Bytes) (arguments : Json) : Bytes :=
  (arguments.getText? name).getD []

/-- An optional value, by default an empty object. -/
def valueArgumentOrEmpty (name : Bytes) (arguments : Json) : Json :=
  (arguments.get? name).getD (.object [])

/-- A bound is a whole number that is not negative; anything else is no bound. -/
def boundArgument? (name : Bytes) (arguments : Json) : Option Nat :=
  match (arguments.get? name).bind Json.toInt64? with
  | some n => if 0 ≤ n then some n.toInt.toNat else none
  | none => none

/-- The texts of a list, or a single text. -/
def textsArgument (name : Bytes) (arguments : Json) : List Bytes :=
  match arguments.get? name with
  | some (.string text) => [text]
  | some (.array items) => items.filterMap Json.text?
  | _ => []

def failedEvent (tool : Tool) (message : Bytes) : Log.Event :=
  Log.warn "rpc" [tool.name, " failed: ", message]

/-- Runs a tool on some arguments. Failures that can be reported, and arguments of the wrong type,
are results too. -/
def call (tool : Tool) (now : Moment) (arguments : Json) : Task Engine Result := do
  if !arguments.isObject then return .bareError "Tool arguments must be an object"
  match missing? tool.required arguments with
  | some name => return .bareError ("Missing required parameter: " ++ name)
  | none =>
    match ← (tool.run now arguments).attempt with
    | .ok result => return result
    | .error (.json failure) => return .bareError ("Invalid arguments: " ++ failure.message)
    | .error e =>
      match e.report? with
      | none => .fail e
      | some report =>
        .log [tool.failedEvent report.message]
        return .error report.line
          (.ofMembers [("error", report.message), ("errorKind", report.kind.name)])

end Tool

end CampaignRules
