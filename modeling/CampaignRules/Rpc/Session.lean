import CampaignRules.Rpc.Request
import CampaignRules.Tool.Catalogue

/-! # Sessions

A session answers requests one after the other. The engine remembers graphs from one to the next,
and a request may shut the session down; no request makes it fail. -/

namespace CampaignRules.Rpc

structure Session where
  engine : Engine
  isShutDown : Bool

/-- An answer, with the session after it and what there is to log. -/
structure Reply (α : Type) where
  session : Session
  log : List Log.Event
  answer : α

namespace Session

def ofEngine (engine : Engine) : Session :=
  ⟨engine, false⟩

def initializeResult : Json :=
  .ofMembers [("protocolVersion", "2024-11-05"),
    ("serverInfo", .ofMembers [("name", Program.name), ("version", Program.version)]),
    ("capabilities", .ofMembers [("tools", .ofMembers [("listChanged", false)])])]

def toolsResult : Json :=
  .ofMembers [("tools", .array (Tool.catalogue.map Tool.toJson))]

/-- An answer that changes nothing. -/
def still (session : Session) (answer : Answer) : Reply Answer :=
  ⟨session, [], answer⟩

/-- Runs a tool. What it fails with is an answer as well. -/
def runTool (now : Moment) (tool : Tool) (arguments : Json) (session : Session) : Reply Answer :=
  let (engine, run) := tool.call now arguments session.engine
  let answer := match run.outcome with
    | .ok result => toolAnswer result
    | .error e => .error .toolExecution ("Tool execution failed: " ++ e.message)
  ⟨{ session with engine }, run.entries, answer⟩

def callTool (now : Moment) (params : Json) (session : Session) : Reply Answer :=
  match params.getText? "name" with
  | none => session.still (.error .invalidParams "Missing tool name")
  | some name =>
    match Tool.named? name with
    | none => session.still (.error .toolNotFound ("Unknown tool: " ++ name))
    | some tool => session.runTool now tool ((params.get? "arguments").getD (.object []))

def answerRequest (now : Moment) (request : Request) (session : Session) : Reply Answer :=
  if request.method = "initialize" then session.still (.result initializeResult)
  else if request.method = "tools/list" then session.still (.result toolsResult)
  else if request.method = "tools/call" then session.callTool now request.params
  else if request.method = "shutdown" then
    ⟨{ session with isShutDown := true }, [], .result (.ofMembers [("status", "ok")])⟩
  else session.still (.error .methodNotFound ("Unknown method: " ++ request.method))

/-- Answers a value, which may be no request. -/
def answerValue (now : Moment) (value : Json) (session : Session) : Reply Response :=
  let reply := match Request.ofJson value with
    | .ok request => session.answerRequest now request
    | .error answer => session.still answer
  { reply with answer := ⟨Request.idOf value, reply.answer⟩ }

/-- Answers the text of a request. -/
def answerText (now : Moment) (text : Bytes) (session : Session) : Reply Response :=
  match readText text with
  | .ok value => session.answerValue now value
  | .error answer => ⟨session, [], ⟨.null, answer⟩⟩

end Session

end CampaignRules.Rpc
