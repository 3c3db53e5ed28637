import CampaignRules.Json.Parser
import CampaignRules.Rpc.Response

/-! # Requests

A request is an object with a version, a method and, if need be, an id and parameters. A text that
holds no request is answered at once. -/

namespace CampaignRules.Rpc

/-- How deep the values of a request may nest. -/
def nestingLimit : Nat := 512

/-- The value that a text holds, or the answer to a text that cannot be read. Malformed texts come
before texts that nest too deep. -/
def readText (text : Bytes) : Except Answer Json :=
  match Json.parseRaw text with
  | .ok written =>
    if written.nesting ≤ nestingLimit then .ok written.canonical
    else .error (.error .invalidRequest
      ("Request nesting exceeds " ++ Bytes.decimal nestingLimit ++ " levels"))
  | .error .malformed =>
    .error (.error .parseError ("JSON parse error: " ++ Json.Failure.malformed.message))
  | .error failure => .error (.error .internalError ("Internal error: " ++ failure.message))

structure Request where
  method : Bytes
  params : Json

namespace Request

/-- The id to answer under, which may be any value; null if there is none. -/
def idOf (value : Json) : Json :=
  (value.get? "id").getD .null

/-- The request that a value is, or the answer to a value that is none. -/
def ofJson (value : Json) : Except Answer Request :=
  if !value.isObject then .error (.error .invalidRequest "Request must be a JSON object")
  else if value.getText? "jsonrpc" ≠ some "2.0" then
    .error (.error .invalidRequest "Missing or invalid jsonrpc version")
  else
    match value.getText? "method" with
    | none => .error (.error .invalidRequest "Missing or invalid method")
    | some method => .ok ⟨method, (value.get? "params").getD (.object [])⟩

end Request

end CampaignRules.Rpc
