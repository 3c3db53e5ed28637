import CampaignRules.Expr.Basic
import CampaignRules.Expr.Registry

/-! # Evaluation

An expression means its value in a scope. The meaning is one and the same whoever observes the
evaluation; here it is carried out without an observer. -/

namespace CampaignRules

/-- Evaluation that nobody observes. -/
instance : Observer (Except Error) where
  fail := .error
  node _ value := value

namespace Expr

variable {m : Type → Type} [Observer m]

/-- How a node shows itself to the observer. -/
def view : Expr → NodeView
  | .literal value => ⟨"literal", some value⟩
  | .array _ => ⟨"literal", none⟩
  | .var path _ => ⟨"var", some (.string path)⟩
  | .operation operator _ => ⟨operator, none⟩

/-- The meaning of an operation: the standard operators come first, then the registered ones. -/
def operationMeaning (registry : Registry) (operator : Bytes) (args : List (Meaning m)) :
    Meaning m :=
  match Operator.ofName? operator with
  | some op => op.run args
  | none =>
    match registry.find? operator with
    | some custom => fun scope => do
      let values ← Operator.evaluateAll scope args
      Observer.ofExcept (custom.result values scope.data)
    | none => fun _ => Observer.fail (.unknownOperator operator)

/-- The empty path is the current element of an iteration, and nothing outside one. A default
counts only for a path that leads nowhere. -/
def varMeaning (path : Bytes) (default : Option (Meaning m)) : Meaning m := fun scope =>
  if path.isEmpty then pure (if scope.iteration then scope.data else .null)
  else
    match scope.data.resolvePath? path, default with
    | some value, _ => pure value
    | none, some default => default scope
    | none, none => pure .null

mutual

/-- The meaning of an expression, each node of which is shown to the observer. -/
def meaning (registry : Registry) : Expr → Meaning m
  | .literal value => fun _ => Observer.node (view (.literal value)) (pure value)
  | .array items => fun scope => Observer.node (view (.array items)) do
    return .array (← Operator.evaluateAll scope (meanings registry items))
  | .var path none => fun scope =>
    Observer.node (view (.var path none)) (varMeaning path none scope)
  | .var path (some default) => fun scope =>
    Observer.node (view (.var path (some default)))
      (varMeaning path (some (meaning registry default)) scope)
  | .operation operator args => fun scope =>
    Observer.node (view (.operation operator args))
      (operationMeaning registry operator (meanings registry args) scope)

def meanings (registry : Registry) : List Expr → List (Meaning m)
  | [] => []
  | item :: rest => meaning registry item :: meanings registry rest

end

theorem length_meanings (registry : Registry) (items : List Expr) :
    (meanings registry items : List (Meaning m)).length = items.length := by
  induction items with
  | nil => rfl
  | cons item rest ih => exact congrArg (· + 1) ih

/-- An operation with a standard operator means what the operator does with its arguments. -/
theorem meaning_operation (registry : Registry) (op : Operator) (args : List Expr) (scope : Scope) :
    ((operation op.name args).meaning registry scope : m Json) =
      Observer.node ⟨op.name, none⟩ (op.run (meanings registry args) scope) := by
  show Observer.node _ (operationMeaning registry op.name (meanings registry args) scope) = _
  rw [operationMeaning, Operator.ofName?_name]
  rfl

/-- The value of an expression on a context. -/
def eval (registry : Registry) (expr : Expr) (context : Json) : Except Error Json :=
  expr.meaning registry ⟨context, false⟩

/-- The expression holds of a context. -/
def test (registry : Registry) (expr : Expr) (context : Json) : Except Error Bool :=
  (expr.eval registry context).map Json.truthy

end Expr

end CampaignRules
