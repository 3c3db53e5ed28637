import CampaignRules.Engine

/-! # Configuration

The defaults are changed first by the environment and then by the arguments, each of which changes
only what it names. What kind of file the records are in is told by its name, unless it is said
outright. -/

namespace CampaignRules

/-- What holds the records. -/
inductive SourceKind where
  | json
  | sqlite
  deriving DecidableEq

namespace SourceKind

def name : SourceKind → Bytes
  | .json => "json"
  | .sqlite => "sqlite"

def ofName? (name : Bytes) : Option SourceKind :=
  [SourceKind.json, .sqlite].find? fun kind => kind.name = name

/-- The kind that the name of a file ends in. -/
def ofPath (path : Bytes) : SourceKind :=
  let endings : List Bytes := [".db", ".sqlite", ".sqlite3"]
  if endings.any fun ending => ending.isSuffixOf path then .sqlite else .json

end SourceKind

structure Config where
  sourcePath : Bytes := []
  sourceKind : SourceKind := .json
  isKindExplicit : Bool := false
  engine : Engine.Options := {}
  logLevel : Log.Level := .warn

namespace Config

/-- A change of one setting, as it is written. -/
inductive Change where
  | sourcePath (path : Bytes)
  | sourceKind (name : Bytes)
  | campaign (id : Bytes)
  | branch (id : Bytes)
  | depthLimit (numeral : Bytes)
  | refuseCyclicWrites (refuse : Bool)
  | linkWriteChains (link : Bool)
  | logLevel (name : Bytes)

def isBlank (b : UInt8) : Bool :=
  b = ' '.toUInt8 || (9 ≤ b && b ≤ 13)

/-- The positive number that a text begins with, behind blanks and a plus sign. Numbers are at most
the largest of 63 bits. -/
def positiveOfText? (text : Bytes) : Option Nat :=
  let text := text.dropWhile isBlank
  let digits := if text.head? = some '+'.toUInt8 then text.tail else text
  let value := Bytes.decimalValue (digits.takeWhile Bytes.isDigit)
  if value = 0 then none else some (min value (power 2 63 - 1))

/-- Only these spellings switch something on. -/
def isOn (text : Bytes) : Bool :=
  let spellings : List Bytes := ["1", "true", "yes", "on"]
  spellings.contains text

/-- Makes a change. An unknown kind, depth or level changes nothing. -/
def apply (config : Config) : Change → Config
  | .sourcePath path => { config with sourcePath := path }
  | .sourceKind name =>
    match SourceKind.ofName? name with
    | some kind => { config with sourceKind := kind, isKindExplicit := true }
    | none => config
  | .campaign id => { config with engine.campaign := id }
  | .branch id => { config with engine.branch := id }
  | .depthLimit numeral =>
    match positiveOfText? numeral with
    | some limit => { config with engine.depthLimit := limit }
    | none => config
  | .refuseCyclicWrites refuse => { config with engine.refuseCyclicWrites := refuse }
  | .linkWriteChains link => { config with engine.linkWriteChains := link }
  | .logLevel name => { config with logLevel := Log.Level.ofName name config.logLevel }

/-- An unknown kind is worth a warning. -/
def changeLog (config : Config) : Change → List Log.Event
  | .sourceKind name =>
    match SourceKind.ofName? name with
    | some _ => []
    | none => [Log.warn "config" ["Unknown source kind '", name, "', keeping ",
        config.sourceKind.name]]
  | _ => []

/-- Takes the kind from the path, if there is one and the kind was not given. -/
def settleKind (config : Config) : Config :=
  if config.isKindExplicit || config.sourcePath.isEmpty then config
  else { config with sourceKind := .ofPath config.sourcePath }

/-- Makes changes one after the other and settles the kind. -/
def applyAll : Config → List Change → Config × List Log.Event
  | config, [] => (config.settleKind, [])
  | config, change :: rest =>
    let (after, log) := (config.apply change).applyAll rest
    (after, config.changeLog change ++ log)

/-- What variables of the environment are set to. -/
abbrev Environment := Bytes → Option Bytes

/-- The variables that count, in the order in which they do. -/
def variableNames : List (String × (Bytes → Change)) :=
  [("SIGIL_SOURCE", .sourcePath),
   ("SIGIL_SOURCE_KIND", .sourceKind),
   ("SIGIL_CAMPAIGN", .campaign),
   ("SIGIL_BRANCH", .branch),
   ("SIGIL_MAX_DEPTH", .depthLimit),
   ("SIGIL_REFUSE_CYCLIC_WRITES", fun text => .refuseCyclicWrites (isOn text)),
   ("SIGIL_LINK_WRITE_CHAINS", fun text => .linkWriteChains (isOn text)),
   ("SIGIL_LOG_LEVEL", .logLevel)]

def changesOfEnvironment (environment : Environment) : List Change :=
  variableNames.filterMap fun (name, change) => (environment name).map change

/-- Options that stand alone. -/
def flag? (argument : Bytes) : Option Change :=
  if argument = "--refuse-cyclic-writes" then some (.refuseCyclicWrites true)
  else if argument = "--no-write-chains" then some (.linkWriteChains false)
  else if argument = "-v" || argument = "--verbose" then some (.logLevel "debug")
  else none

/-- Options that take the next argument. -/
def option? (argument : Bytes) : Option (Bytes → Change) :=
  if argument = "--source" then some .sourcePath
  else if argument = "--source-kind" then some .sourceKind
  else if argument = "--campaign" then some .campaign
  else if argument = "--branch" then some .branch
  else if argument = "--max-depth" then some .depthLimit
  else if argument = "--log-level" then some .logLevel
  else none

/-- The changes that arguments ask for, and the arguments that are left. An option at the end, with
nothing to take, is left too. -/
def changesOfArguments : List Bytes → List Change × List Bytes
  | [] => ([], [])
  | [argument] =>
    match flag? argument with
    | some change => ([change], [])
    | none => ([], [argument])
  | argument :: next :: rest =>
    match option? argument, flag? argument with
    | some change, _ =>
      let (changes, left) := changesOfArguments rest
      (change next :: changes, left)
    | none, some change =>
      let (changes, left) := changesOfArguments (next :: rest)
      (change :: changes, left)
    | none, none =>
      let (changes, left) := changesOfArguments (next :: rest)
      (changes, argument :: left)

/-- A configuration, with the arguments that are not for it and what there is to log. -/
structure Reading where
  config : Config
  rest : List Bytes
  log : List Log.Event

def read (environment : Environment) (arguments : List Bytes) : Reading :=
  let (config, environmentLog) := Config.applyAll {} (changesOfEnvironment environment)
  let (changes, rest) := changesOfArguments arguments
  let (config, argumentsLog) := config.applyAll changes
  ⟨config, rest, environmentLog ++ argumentsLog⟩

end Config

end CampaignRules
