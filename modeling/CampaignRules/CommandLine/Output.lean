import CampaignRules.Engine

/-! # What a command writes

A command prints its results, complains on the side, and logs. It ends with an exit status unless it
fails for a reason that it cannot report. -/

namespace CampaignRules.CommandLine

inductive Output where
  | printed (text : Bytes)
  | complaint (text : Bytes)
  | logged (event : Log.Event)

namespace Output

def printed? : Output → Option Bytes
  | .printed text => some text
  | _ => none

def complaint? : Output → Option Bytes
  | .complaint text => some text
  | _ => none

def logged? : Output → Option Log.Event
  | .logged event => some event
  | _ => none

end Output

abbrev Command := Recorded Output Error

namespace Command

def print (text : Bytes) : Command Unit :=
  .record (.printed text)

def complain (text : Bytes) : Command Unit :=
  .record (.complaint text)

/-- Complains in the name of the program. -/
def complainAs (text : Bytes) : Command Unit :=
  complain ("[" ++ Program.name ++ "] " ++ text ++ "\n")

def log (events : List Log.Event) : Command Unit :=
  .recordAll (events.map .logged)

/-- The outcome of a computation, which has logged what it had to. -/
def attempt {α : Type} (x : Logged α) : Command (Except Error α) := do
  log x.entries
  return x.outcome

end Command

end CampaignRules.CommandLine
