import CampaignRules.Error

/-! # Patch operations

A patch is a list of operations on a document. Its wire form is an array of objects, each with the
kind of the operation in `op`, its place in `path`, and what the kind needs besides: a `value`, or
the place `from` which a value is taken. -/

namespace CampaignRules.Patch

inductive Operation where
  | add (path : Bytes) (value : Json)
  | remove (path : Bytes)
  | replace (path : Bytes) (value : Json)
  | copy (source path : Bytes)
  | move (source path : Bytes)
  | test (path : Bytes) (value : Json)

namespace Operation

def kind : Operation → Kind
  | .add .. => .add
  | .remove _ => .remove
  | .replace .. => .replace
  | .copy .. => .copy
  | .move .. => .move
  | .test .. => .test

def path : Operation → Bytes
  | .add path _ | .remove path | .replace path _ | .copy _ path | .move _ path | .test path _ =>
    path

/-- Reads an operation; the first fault found is reported with the given position. -/
def ofJson (index : Nat) (wire : Json) : Except Error Operation :=
  let fault := fun f => Except.error (.unreadableOperation index f)
  match wire with
  | .object members =>
    match Json.Members.get? "op" members with
    | some (.string name) =>
      match Kind.ofName? name with
      | none => fault (.unknownKind name)
      | some kind =>
        match Json.Members.get? "path" members with
        | some (.string path) =>
          let value := Json.Members.get? "value" members
          let source := (Json.Members.get? "from" members).bind Json.text?
          match kind, value, source with
          | .add, some value, _ => .ok (.add path value)
          | .replace, some value, _ => .ok (.replace path value)
          | .test, some value, _ => .ok (.test path value)
          | .remove, _, _ => .ok (.remove path)
          | .copy, _, some source => .ok (.copy source path)
          | .move, _, some source => .ok (.move source path)
          | kind, _, _ => fault (if kind.needsValue then .missingValue kind else .missingSource kind)
        | _ => fault .missingPath
    | _ => fault .missingKind
  | _ => fault .notObject

def toJson (operation : Operation) : Json :=
  let rest := match operation with
    | .add _ value | .replace _ value | .test _ value => [(Bytes.ofString "value", value)]
    | .copy source _ | .move source _ => [(Bytes.ofString "from", Json.string source)]
    | .remove _ => []
  .ofMembers ([(Bytes.ofString "op", .string operation.kind.name),
    (Bytes.ofString "path", .string operation.path)] ++ rest)

end Operation

end CampaignRules.Patch
