import CampaignRules.Expr.Reads
import CampaignRules.Json.Pointer
import CampaignRules.Patch.Problem

/-! # Variables that a patch writes and inspects

They are taken from the wire form; operations that are no operations count for nothing. What counts
is the variable that holds the place, the first token below the variables. -/

namespace CampaignRules.Patch

/-- The start of all pointers to variables. -/
def variablesPrefix : Bytes := "/variables/"

/-- The variable that a pointer leads into; the empty name if it leads elsewhere. -/
def variableOf (pointer : Bytes) : Bytes :=
  if variablesPrefix.isPrefixOf pointer then
    Json.Pointer.unescape (Bytes.cutAt Json.Pointer.slash (pointer.drop variablesPrefix.length)).1
  else []

/-- The variable at the pointer in a field of an operation, if there is one. -/
def variableIn (field : String) (wire : Json) : List Bytes :=
  match wire.get? field with
  | some (.string pointer) =>
    let name := variableOf pointer
    if name.isEmpty then [] else [name]
  | _ => []

/-- The kind that a wire form names. -/
def kindOf? (wire : Json) : Option Kind :=
  (wire.getText? "op").bind Kind.ofName?

/-- An operation writes its place, and a move its source too, which it removes. -/
def operationWrites (wire : Json) : List Bytes :=
  match kindOf? wire with
  | some .move => variableIn "path" wire ++ variableIn "from" wire
  | some .test | none => []
  | some _ => variableIn "path" wire

/-- An operation inspects the source of its value, and a test its place. -/
def operationReads (wire : Json) : List Bytes :=
  match kindOf? wire with
  | some .copy | some .move => variableIn "from" wire
  | some .test => variableIn "path" wire
  | _ => []

def writes (payload : Json) : List Bytes :=
  Bytes.sortedSet ((payload.items?.getD []).flatMap operationWrites)

def reads (payload : Json) : List Bytes :=
  Bytes.sortedSet ((payload.items?.getD []).flatMap operationReads)

end CampaignRules.Patch
