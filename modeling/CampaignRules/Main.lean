import CampaignRules.CommandLine.Run
import Std.Time.DateTime.Timestamp

/-! # The executable -/

namespace CampaignRules.Main

open CommandLine

def bytesOf (text : String) : Bytes :=
  Bytes.ofString text

def textOf (bytes : Bytes) : String :=
  (String.fromUTF8? (Utf8.repair bytes).toByteArray).getD ""

def now : IO Moment := do
  return ⟨(← Std.Time.Timestamp.now).toMillisecondsSinceUnixEpoch.toInt⟩

/-- Writes output as it comes and returns the threshold that is in force after it. -/
def emit (threshold : Log.Level) : List Output → IO Log.Level
  | [] => return threshold
  | .printed text :: rest => do
    let stdout ← IO.getStdout
    stdout.write text.toByteArray
    stdout.flush
    emit threshold rest
  | .complaint text :: rest => do
    (← IO.getStderr).write text.toByteArray
    emit threshold rest
  | .logged event :: rest => do
    (← IO.getStderr).write (Log.render (← now) threshold [event]).toByteArray
    emit (Log.thresholdAfter threshold [event]) rest

def readEnvironment : IO Config.Environment := do
  let mut values : List (Bytes × Bytes) := []
  for (name, _) in Config.variableNames do
    if let some value ← IO.getEnv name then
      values := (bytesOf name, bytesOf value) :: values
  return fun name => values.lookup name

/-- The file that is going to be asked for, if it can be read. -/
def readFiles (path : Bytes) : IO Files := do
  match String.fromUTF8? path.toByteArray with
  | none => return fun _ => none
  | some name =>
    try
      let contents ← IO.FS.readBinFile name
      return fun asked => if asked = path then some contents.data.toList else none
    catch _ => return fun _ => none

/-- The bytes up to the end of a line; none at the end of the input. -/
partial def readLine (input : IO.FS.Stream) (line : ByteArray) : IO (Option Bytes) := do
  let next ← input.read 1
  if next.isEmpty then
    return if line.isEmpty then none else some line.data.toList
  else if next.data[0]? = some '\n'.toUInt8 then return some line.data.toList
  else readLine input (line ++ next)

partial def serve (threshold : Log.Level) (session : Rpc.Session) : IO Unit := do
  match ← readLine (← IO.getStdin) .empty with
  | none => return ()
  | some line =>
    let (session, output) := answerLine (← now) line session
    let threshold ← emit threshold output
    if session.isShutDown then return () else serve threshold session

def run (arguments : List Bytes) : IO UInt32 := do
  let environment ← readEnvironment
  let files ← readFiles (Config.read environment arguments).config.sourcePath
  let started := start (← now) environment files arguments
  let threshold ← emit .warn started.entries
  match started.outcome with
  | .ok (.finished status) => return status.toUInt32
  | .ok (.serving session) =>
    serve threshold session
    return 0
  | .error e => throw (.userError (textOf e.message))

end CampaignRules.Main

def main (arguments : List String) : IO UInt32 :=
  CampaignRules.Main.run (arguments.map CampaignRules.Bytes.ofString)
