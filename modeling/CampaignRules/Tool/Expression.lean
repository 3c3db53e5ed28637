import CampaignRules.Expr.Reads
import CampaignRules.Tool.Basic

/-! # Tools for conditions and expressions -/

namespace CampaignRules.Tool

def expressionParameter : Parameter where
  name := "expression"
  type := none
  description := "Expression tree"
  isRequired := true

def contextParameter : Parameter where
  name := "context"
  type := some "object"
  description := "Evaluation data"

/-- The value of an evaluation on one line, after a heading, or what it failed with. -/
def evaluationResult (heading : Bytes) (e : Evaluation) : Except Error Result :=
  match e.outcome with
  | .error report => .ok (.error report.line e.toJson)
  | .ok value =>
    match value.render? with
    | some text => .ok (.ok (heading ++ text) e.toJson)
    | none => .error (.json .wrongType)

def evaluateCondition : Tool where
  name := "evaluate_condition"
  description := "Evaluate a stored condition against a context object. Returns the value " ++
    "and the pre-order execution trace."
  parameters :=
    [{ name := "conditionId", type := some "string", description := "Condition record id",
       isRequired := true },
     contextParameter]
  run _ arguments := do
    let id ← .ofExcept (textArgument "conditionId" arguments)
    let context := valueArgumentOrEmpty "context" arguments
    let evaluation ← .ofLogged ((← Task.state).evaluateCondition id context)
    .ofExcept (evaluationResult ("Condition " ++ id ++ " = ") evaluation)

def evaluateExpression : Tool where
  name := "evaluate_expression"
  description := "Evaluate an inline expression against a context object."
  parameters := [expressionParameter, contextParameter]
  run _ arguments := do
    let expression ← .ofExcept (valueArgument "expression" arguments)
    let context := valueArgumentOrEmpty "context" arguments
    let evaluation ← .ofLogged ((← Task.state).evaluateExpression expression context)
    .ofExcept (evaluationResult [] evaluation)

def findingsText (findings : List Expr.Finding) : Bytes :=
  if findings.isEmpty then "Expression is valid"
  else "Expression has " ++ Bytes.decimal findings.length ++ " error(s):" ++
    itemLines "- " (findings.map Expr.Finding.message)

def validateExpression : Tool where
  name := "validate_expression"
  description :=
    "Check an expression for unknown operators, malformed nodes and excessive depth."
  parameters := [expressionParameter]
  run _ arguments := do
    let expression ← .ofExcept (valueArgument "expression" arguments)
    let findings := (← Task.state).checkExpression expression
    return .ok (findingsText findings) (Expr.checkToJson findings)

def extractReads : Tool where
  name := "extract_reads"
  description := "List the base variable names an expression reads."
  parameters := [expressionParameter]
  run _ arguments := do
    let reads := Expr.wireReads (← .ofExcept (valueArgument "expression" arguments))
    let content : Bytes := if reads.isEmpty then "No variables read" else Bytes.join ", " reads
    return .ok content (.ofMembers [("variables", .ofTexts reads)])

def expressionTools : List Tool :=
  [evaluateCondition, evaluateExpression, validateExpression, extractReads]

end CampaignRules.Tool
