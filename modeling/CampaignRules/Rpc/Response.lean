import CampaignRules.Json.Printer
import CampaignRules.Tool.Basic

/-! # Responses

A response repeats the id of its request and holds either a result or an error, never both. -/

namespace CampaignRules.Rpc

inductive ErrorCode where
  | parseError
  | invalidRequest
  | methodNotFound
  | invalidParams
  | internalError
  | toolNotFound
  | toolExecution

def ErrorCode.number : ErrorCode → Int32
  | .parseError => -32700
  | .invalidRequest => -32600
  | .methodNotFound => -32601
  | .invalidParams => -32602
  | .internalError => -32603
  | .toolNotFound => -32001
  | .toolExecution => -32002

inductive Answer where
  | result (value : Json)
  | error (code : ErrorCode) (message : Bytes)

structure Response where
  id : Json
  answer : Answer

namespace Response

def toJson (r : Response) : Json :=
  match r.answer with
  | .result value => .ofMembers [("jsonrpc", "2.0"), ("id", r.id), ("result", value)]
  | .error code message =>
    .ofMembers [("jsonrpc", "2.0"), ("id", r.id),
      ("error", .ofMembers [("code", .ofInt32 code.number), ("message", message)])]

/-- The text of a response; bytes of records that are not UTF-8 are replaced. -/
def render (r : Response) : Bytes :=
  r.toJson.renderLenient

end Response

/-- The result of a tool, its content as the only block. -/
def toolAnswer (r : Tool.Result) : Answer :=
  let block := Json.ofMembers [("type", "text"), ("text", r.content)]
  let base := Json.ofMembers [("content", .array [block]), ("isError", r.isError)]
  .result (if r.structured.isNull then base else base.set "structured" r.structured)

end CampaignRules.Rpc
