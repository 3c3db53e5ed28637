import CampaignRules.Expr.Registry

/-! # Checking an expression before it is stored

The wire form of an expression is checked as a whole, below malformed parts too. Each unknown
operator is reported once, and so is nesting beyond the limit. -/

namespace CampaignRules.Expr

inductive Finding where
  | null
  | tooDeep (limit : Nat)
  | noOperator
  | severalOperators (count : Nat)
  | pathType
  | varArguments
  | unknownOperator (name : Bytes)
  deriving DecidableEq

namespace Finding

def message : Finding → Bytes
  | .null => "Expression cannot be null"
  | .tooDeep limit => "Expression exceeds maximum depth of " ++ Bytes.decimal limit
  | .noOperator => "Expression object must contain an operator"
  | .severalOperators count =>
    "Expression object must have exactly one operator key, found " ++ Bytes.decimal count
  | .pathType => "var path must be a string or an integer index"
  | .varArguments => "var takes a path and an optional default"
  | .unknownOperator name => "Unknown operator: " ++ name

/-- Reported at its first place only. -/
def isReportedOnce : Finding → Bool
  | .tooDeep _ | .unknownOperator _ => true
  | _ => false

/-- Drops findings that were reported before. -/
def withoutRepeats : List Finding → List Finding
  | [] => []
  | finding :: rest =>
    finding ::
      (withoutRepeats rest).filter fun other => !(other.isReportedOnce && other = finding)

end Finding

/-- A path is a text, a whole number or null; no arguments at all are fine too. -/
def isVarPath : Json → Bool
  | .null | .string _ | .unsigned _ | .signed _ => true
  | _ => false

/-- What is wrong with the argument of a reference itself, its default apart. -/
def varFindings : Json → List Finding
  | .array [] => []
  | .array (path :: rest) =>
    (if isVarPath path then [] else [.pathType]) ++ if rest.length > 1 then [.varArguments] else []
  | path => if isVarPath path then [] else [.pathType]

section

variable (registry : Registry) (limit : Nat)

def operatorFindings (operator : Bytes) : List Finding :=
  if Operator.isStandardName operator || registry.has operator then []
  else [.unknownOperator operator]

mutual

/-- All findings below a node at the given depth. The list of the arguments is no level. -/
def findings (depth : Nat) (node : Json) : List Finding :=
  if depth > limit then [.tooDeep limit]
  else
    match node with
    | .array items => itemFindings (depth + 1) items
    | .object [] => [.noOperator]
    | .object members =>
      (if members.length > 1 then [.severalOperators members.length] else []) ++
        memberFindings (depth + 1) members
    | _ => []

def itemFindings (depth : Nat) : List Json → List Finding
  | [] => []
  | item :: rest => findings depth item ++ itemFindings depth rest

def memberFindings (depth : Nat) : List (Bytes × Json) → List Finding
  | [] => []
  | (operator, arg) :: rest =>
    (if operator = "var" then
      varFindings arg ++
        match arg with
        | .array [_, default] => findings depth default
        | _ => []
    else
      operatorFindings registry operator ++
        match arg with
        | .array items => itemFindings depth items
        | arg => findings depth arg) ++
      memberFindings depth rest

end

/-- What is wrong with an expression that may nest to the given depth. -/
def check (expression : Json) : List Finding :=
  if expression.isNull then [.null]
  else Finding.withoutRepeats (findings registry limit 0 expression)

end

/-- The outcome of a check, valid if nothing was found. -/
def checkToJson (findings : List Finding) : Json :=
  .ofMembers [("isValid", findings.isEmpty), ("errors", .ofTexts (findings.map Finding.message))]

end CampaignRules.Expr
