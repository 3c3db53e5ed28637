import CampaignRules.Expr.Basic

/-! # Variables that an expression reads

What counts is the variable that holds the data, which is the first segment of a path. The reads of
an expression are those of all its parts, defaults included. They can also be taken from a wire
form that is no expression. -/

namespace CampaignRules.Expr

/-- The first segment of a path. -/
def baseVariable (path : Bytes) : Bytes :=
  (Bytes.cutAt '.'.toUInt8 path).1

/-- The variable that a path reads, if it names one. -/
def readOf (path : Bytes) : List Bytes :=
  let base := baseVariable path
  if base.isEmpty then [] else [base]

mutual

/-- The paths of all references, in the order of the text. -/
def paths : Expr → List Bytes
  | .literal _ => []
  | .array items => itemsPaths items
  | .var path none => [path]
  | .var path (some default) => path :: paths default
  | .operation _ args => itemsPaths args

def itemsPaths : List Expr → List Bytes
  | [] => []
  | item :: rest => paths item ++ itemsPaths rest

end

/-- The set of variables that an expression reads. -/
def reads (expr : Expr) : List Bytes :=
  Bytes.sortedSet (expr.paths.flatMap readOf)

/-- The paths that are not empty, each where it stands first. -/
def distinctPaths (expr : Expr) : List Bytes :=
  (expr.paths.filter fun path => !path.isEmpty).eraseDups

/-- The variable that the argument of a reference names. A whole number names itself. -/
def readOfArgument (arg : Json) : List Bytes :=
  let path := match arg with
    | .array (path :: _) => path
    | arg => arg
  match path with
  | .string path => readOf path
  | .unsigned n => [Bytes.decimal n.toNat]
  | .signed n => [Bytes.signedDecimal n.toInt]
  | _ => []

mutual

/-- All reads below a value at the given level; what nests deeper than expressions may is left. -/
def wireReadsAt (level : Nat) (value : Json) : List Bytes :=
  if level > maxNesting then []
  else
    match value with
    | .array items => itemsWireReads (level + 1) items
    | .object members => membersWireReads (level + 1) members
    | _ => []

def itemsWireReads (level : Nat) : List Json → List Bytes
  | [] => []
  | item :: rest => wireReadsAt level item ++ itemsWireReads level rest

def membersWireReads (level : Nat) : List (Bytes × Json) → List Bytes
  | [] => []
  | (key, value) :: rest =>
    (if key = "var" then readOfArgument value else []) ++ wireReadsAt level value ++
      membersWireReads level rest

end

/-- The set of variables that a wire form reads; anything but an object reads nothing. -/
def wireReads (value : Json) : List Bytes :=
  if value.isObject then Bytes.sortedSet (wireReadsAt 1 value) else []

def wireReadsOfAll (values : List Json) : List Bytes :=
  Bytes.sortedSet (values.flatMap wireReads)

end CampaignRules.Expr
