import CampaignRules.Json.Printer
import CampaignRules.Log
import CampaignRules.Record.Condition
import CampaignRules.Record.Effect
import CampaignRules.Record.Entity

/-! # Snapshots

A snapshot is a document with lists of conditions, effects and entities. Loading one replaces what
was held. Records that cannot be read are left out with a warning; a document that is no snapshot
is rejected. -/

namespace CampaignRules

structure Snapshot where
  /-- where the snapshot was read from, empty if from nowhere in particular -/
  origin : Bytes
  conditions : List Condition
  effects : List Effect
  entities : List Entity
  warnings : List Bytes

namespace Snapshot

def empty : Snapshot := ⟨[], [], [], [], []⟩

def describe (s : Snapshot) : Bytes :=
  let origin : Bytes := if s.origin.isEmpty then "<memory>" else s.origin
  "json:" ++ origin

/-- The only format there is. -/
def currentFormat : Nat := 1

/-- What a load has come to: it may fail half way. -/
structure Loading where
  snapshot : Snapshot
  log : List Log.Event
  failure : Option Error

namespace Loading

/-- Goes on unless the load failed. -/
def andThen (loading : Loading) (next : Snapshot → Loading) : Loading :=
  match loading.failure with
  | some _ => loading
  | none =>
    let more := next loading.snapshot
    { more with log := loading.log ++ more.log }

end Loading

/-- The records of a list that can be read, and a warning for each that cannot. -/
def readRecords {α : Type} (key : Bytes) (read : Json → Except Error α) :
    Nat → List Json → List α × List Bytes
  | _, [] => ([], [])
  | index, wire :: rest =>
    let (records, warnings) := readRecords key read (index + 1) rest
    match read wire with
    | .ok record => (record :: records, warnings)
    | .error e =>
      (records, (key ++ "[" ++ Bytes.decimal index ++ "]: " ++ e.message) :: warnings)

/-- Loads one list of a snapshot document. -/
def loadList {α : Type} (key : Bytes) (read : Json → Except Error α)
    (put : List α → Snapshot → Snapshot) (document : Json) (s : Snapshot) : Loading :=
  match document.get? key with
  | none | some .null => ⟨s, [], none⟩
  | some (.array items) =>
    let (records, warnings) := readRecords key read 0 items
    { snapshot := put records { s with warnings := s.warnings ++ warnings }
      log := warnings.map fun w => Log.warn "source" ["Skipping ", w]
      failure := none }
  | some _ => ⟨s, [], some (.storage (.notArray key))⟩

/-- Why a document is no snapshot at all. -/
def rejection? (document : Json) : Option Error :=
  if !document.isObject then some (.storage .notObject)
  else
    match document.get? "format" with
    | none => none
    | some format =>
      if format.isInteger && format.toInt32? = some (Int32.ofNat currentFormat) then none
      else
        match format.render? with
        | some shown => some (.storage (.unsupportedFormat shown))
        | none => some (.json .wrongType)

def loadedEvent (s : Snapshot) : Log.Event :=
  Log.debug "source" ["Loaded ", Bytes.decimal s.conditions.length, " conditions, ",
    Bytes.decimal s.effects.length, " effects, ", Bytes.decimal s.entities.length, " entities (",
    Bytes.decimal s.warnings.length, " skipped)"]

/-- Drops all records held and loads those of a document. -/
def load (document : Json) (s : Snapshot) : Loading :=
  let cleared := { empty with origin := s.origin }
  match rejection? document with
  | some e => ⟨cleared, [], some e⟩
  | none =>
    loadList "conditions" Condition.ofJson (fun l s => { s with conditions := l }) document cleared
      |>.andThen (loadList "effects" Effect.ofJson (fun l s => { s with effects := l }) document)
      |>.andThen (loadList "entities" Entity.ofJson (fun l s => { s with entities := l }) document)
      |>.andThen fun s => ⟨s, [loadedEvent s], none⟩

/-- A snapshot read from a document. -/
def ofJson (document : Json) : Logged Snapshot :=
  let loading := load document empty
  match loading.failure with
  | some e => ⟨loading.log, .error e⟩
  | none => ⟨loading.log, .ok loading.snapshot⟩

/-- A snapshot read from the text of a file. Only the first value of the text counts. -/
def ofText (path text : Bytes) : Logged Snapshot := do
  match Json.parseFirst text with
  | .ok document => return { ← ofJson document with origin := path }
  | .error .malformed => Recorded.fail (.storage (.notJson path .malformed))
  | .error e => Recorded.fail (.json e)

/-- The document that holds all records. -/
def toJson (s : Snapshot) : Json :=
  .ofMembers [("format", .ofNat currentFormat),
    ("conditions", .array (s.conditions.map Condition.toJson)),
    ("effects", .array (s.effects.map Effect.toJson)),
    ("entities", .array (s.entities.map Entity.toJson))]

/-- A record belongs to a scope if neither its campaign nor its branch speaks against it. An empty
campaign on either side fits all, and so does an empty branch that is asked for. -/
def inScope (campaign branch recordCampaign recordBranch : Bytes) : Bool :=
  (campaign.isEmpty || recordCampaign.isEmpty || recordCampaign = campaign) &&
    (branch.isEmpty || recordBranch = branch)

def conditionsIn (campaign branch : Bytes) (s : Snapshot) : List Condition :=
  s.conditions.filter fun c => inScope campaign branch c.campaignId c.branchId

def effectsIn (campaign branch : Bytes) (s : Snapshot) : List Effect :=
  s.effects.filter fun e => inScope campaign branch e.campaignId e.branchId

def entitiesIn (campaign branch : Bytes) (s : Snapshot) : List Entity :=
  s.entities.filter fun e => inScope campaign branch e.campaignId e.branchId

/-- All effects of an entity, in any scope. -/
def effectsOf (owner : EntityRef) (s : Snapshot) : List Effect :=
  s.effects.filter fun e => e.owner = owner

def condition? (id : Bytes) (s : Snapshot) : Option Condition :=
  s.conditions.find? fun c => c.id = id

def effect? (id : Bytes) (s : Snapshot) : Option Effect :=
  s.effects.find? fun e => e.id = id

def entity? (ref : EntityRef) (s : Snapshot) : Option Entity :=
  s.entities.find? fun e => e.ref = ref

end Snapshot

end CampaignRules
