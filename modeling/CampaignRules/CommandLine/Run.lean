import CampaignRules.CommandLine.Output
import CampaignRules.CommandLine.Usage
import CampaignRules.Config
import CampaignRules.Rpc.Session

/-! # Running the program

The program runs one tool on a snapshot, or serves requests, one a line, until its input ends or a
request shuts it down. -/

namespace CampaignRules.CommandLine

def isOption (argument : Bytes) : Bool :=
  ("--" : Bytes).isPrefixOf argument

/-- The JSON value that an argument spells, or else its text. -/
def valueOf (argument : Bytes) : Json :=
  match Json.parse argument with
  | .ok value => value
  | .error _ => .string argument

/-- Collects named arguments: an option has the next argument for its value, unless that is an
option too. -/
def collect (arguments : Json) : List Bytes → Command Json
  | [] => return arguments
  | argument :: rest =>
    if argument = "--json" then collect arguments rest
    else if isOption argument then
      match rest with
      | [] => return arguments.set (argument.drop 2) true
      | value :: more =>
        if isOption value then collect (arguments.set (argument.drop 2) true) (value :: more)
        else collect (arguments.set (argument.drop 2) (valueOf value)) more
    else do
      .complainAs ("Ignoring positional argument: " ++ argument)
      collect arguments rest

/-- The structured result, or the content of one that has none. -/
def structuredOutput (result : Tool.Result) : Json :=
  if result.structured.isNull then .object [("error", result.content)] else result.structured

def report (asJson : Bool) (result : Tool.Result) : Command Nat := do
  if asJson then .print ((structuredOutput result).renderIndentedLenient ++ "\n")
  else if result.isError then .complain (result.content ++ "\n")
  else .print (result.content ++ "\n")
  return if result.isError then 1 else 0

def runTool (now : Moment) (tool : Tool) (arguments : List Bytes) (asJson : Bool)
    (engine : Engine) : Command Nat := do
  let arguments ← collect (.object []) arguments
  match arguments.render? with
  | none => .fail (.json .wrongType)
  | some shown =>
    .log [Log.debug "cli" [tool.name, " ", shown]]
    match ← .attempt (tool.call now arguments engine).2 with
    | .ok result => report asJson result
    | .error e => .fail e

/-- The contents of files, by path. Left out is a path that can be opened but not read, such as that of
a directory: it counts as one that cannot be opened. -/
abbrev Files := Bytes → Option Bytes

def openSource (files : Files) (config : Config) : Logged Snapshot :=
  match config.sourceKind, files config.sourcePath with
  | .sqlite, _ => .fail (.storage (.databaseUnsupported config.sourcePath))
  | .json, none => .fail (.storage (.cannotOpen config.sourcePath))
  | .json, some text => do
    let snapshot ← Snapshot.ofText config.sourcePath text
    .recordAll (snapshot.warnings.map fun warning => Log.warn "source" [warning])
    .record (Log.info "source" ["Opened ", snapshot.describe])
    return snapshot

/-- What the arguments ask for that are not for the configuration. The first that does not look like
an option names the tool. -/
structure Wish where
  version : Bool
  help : Bool
  asJson : Bool
  tool : Option (Bytes × List Bytes)

def Wish.ofArguments (arguments : List Bytes) : Wish where
  version := arguments.contains "--version"
  help := arguments.contains "-h" || arguments.contains "--help"
  asJson := arguments.contains "--json"
  tool :=
    match arguments.dropWhile fun argument => argument.head? = some '-'.toUInt8 with
    | [] => none
    | name :: rest => some (name, rest)

/-- How the program goes on once it has started. -/
inductive Course where
  | finished (status : Nat)
  | serving (session : Rpc.Session)

/-- Goes on with the records at hand. -/
def proceed (now : Moment) (wish : Wish) (engine : Engine) : Command Course := do
  if wish.help then
    .complain usageWithTools
    return .finished 0
  match wish.tool with
  | none =>
    .complainAs "Listening on stdin..."
    return .serving (.ofEngine engine)
  | some (name, arguments) =>
    match Tool.named? name with
    | some tool => return .finished (← runTool now tool arguments wish.asJson engine)
    | none =>
      .complain ("Unknown tool: " ++ name ++ "\n")
      .complain usageWithTools
      return .finished 1

/-- Starts the program. A snapshot that cannot be opened is complained about. -/
def start (now : Moment) (environment : Config.Environment) (files : Files)
    (arguments : List Bytes) : Command Course := do
  let reading := Config.read environment arguments
  let config := reading.config
  .log (reading.log ++ [.setThreshold config.logLevel])
  let wish := Wish.ofArguments reading.rest
  if wish.version then
    .print (Program.name ++ " " ++ Program.version ++ "\n")
    return .finished 0
  if config.sourcePath.isEmpty then
    .complain usage
    if wish.help then return .finished 0
    .complain "\nError: no record source (--source or SIGIL_SOURCE)\n"
    return .finished 1
  match ← .attempt (openSource files config) with
  | .ok snapshot => proceed now wish (.ofSnapshot config.engine .empty snapshot)
  | .error e =>
    match e.report? with
    | none => .fail e
    | some report =>
      .complainAs report.message
      return .finished 1

/-- Answers one line of input; an empty one asks for nothing. -/
def answerLine (now : Moment) (line : Bytes) (session : Rpc.Session) :
    Rpc.Session × List Output :=
  if line.isEmpty then (session, [])
  else
    let reply := session.answerText now line
    (reply.session, reply.log.map .logged ++ [.printed (reply.answer.render ++ "\n")])

/-- Answers line by line until the session is shut down. -/
def serve (now : Moment) : Rpc.Session → List Bytes → Command Unit
  | _, [] => return ()
  | session, line :: rest => do
    let (session, output) := answerLine now line session
    .recordAll output
    if session.isShutDown then return () else serve now session rest

/-- The whole program on an input that is at hand; it ends with the exit status. -/
def run (now : Moment) (environment : Config.Environment) (files : Files)
    (arguments : List Bytes) (input : Bytes) : Command Nat := do
  match ← start now environment files arguments with
  | .finished status => return status
  | .serving session =>
    serve now session (Bytes.splitOn '\n'.toUInt8 input)
    return 0

end CampaignRules.CommandLine
