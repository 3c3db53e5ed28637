import CampaignRules.Clock
import CampaignRules.Error
import CampaignRules.Recorded

/-! # The log

Computations say what is worth logging as a list of events; which entries are shown is decided when
the list is written out, by a threshold that events may change. A line tells the time, the
component and, from warnings on, the level. -/

namespace CampaignRules

namespace Log

inductive Level where
  | debug
  | info
  | warn
  | error
  | off
  deriving DecidableEq

namespace Level

def rank : Level → Nat
  | .debug => 0
  | .info => 1
  | .warn => 2
  | .error => 3
  | .off => 4

def name : Level → Bytes
  | .debug => "debug"
  | .info => "info"
  | .warn => "warn"
  | .error => "error"
  | .off => "off"

/-- The level that a name stands for; another name stands for the fallback. -/
def ofName (name : Bytes) (fallback : Level) : Level :=
  if name = "debug" || name = "verbose" then .debug
  else if name = "info" then .info
  else if name = "warn" || name = "warning" then .warn
  else if name = "error" then .error
  else if name = "off" || name = "quiet" then .off
  else fallback

end Level

structure Entry where
  level : Level
  component : Bytes
  message : Bytes

inductive Event where
  | entry (e : Entry)
  | setThreshold (level : Level)

/-- The longest message of a line, in bytes. -/
def messageLimit : Nat := 1023

def Entry.line (now : Moment) (e : Entry) : Bytes :=
  let level : Bytes := if e.level.rank < Level.warn.rank then "" else e.level.name ++ ": "
  "[" ++ now.timeText ++ "." ++ now.millisecondText ++ "][" ++ e.component.beforeNul ++ "] " ++
    level ++ e.message.take messageLimit ++ "\n"

/-- The lines of all entries that reach the threshold in force. -/
def render (now : Moment) : Level → List Event → Bytes
  | _, [] => []
  | threshold, .entry e :: rest =>
    if threshold.rank ≤ e.level.rank then e.line now ++ render now threshold rest
    else render now threshold rest
  | _, .setThreshold level :: rest => render now level rest

/-- The threshold in force after some events. -/
def thresholdAfter : Level → List Event → Level
  | threshold, [] => threshold
  | threshold, .entry _ :: rest => thresholdAfter threshold rest
  | _, .setThreshold level :: rest => thresholdAfter level rest

/-- Texts inside a message end at their first NUL. -/
def event (level : Level) (component : String) (message : List Bytes) : Event :=
  .entry ⟨level, component, message.flatMap Bytes.beforeNul⟩

def debug (component : String) (message : List Bytes) : Event :=
  event .debug component message

def info (component : String) (message : List Bytes) : Event :=
  event .info component message

def warn (component : String) (message : List Bytes) : Event :=
  event .warn component message

end Log

/-- A computation that may fail, with what it logs. -/
abbrev Logged := Recorded Log.Event Error

end CampaignRules
