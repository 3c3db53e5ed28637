import CampaignRules.Expr.Operator

/-! # Custom operators

A registry holds operators beyond the standard ones, by name and in the order of their names. A
custom operator gets the values of its arguments and the data in scope. -/

namespace CampaignRules

structure CustomOperator where
  name : Bytes
  apply : (args : List Json) → (data : Json) → Except Error Json

/-- Operators by increasing name. -/
structure Registry where
  operators : List CustomOperator

namespace Registry

def empty : Registry := ⟨[]⟩

def find? (name : Bytes) (registry : Registry) : Option CustomOperator :=
  registry.operators.find? fun op => op.name = name

def has (name : Bytes) (registry : Registry) : Bool :=
  (registry.find? name).isSome

def names (registry : Registry) : List Bytes :=
  registry.operators.map (·.name)

def size (registry : Registry) : Nat :=
  registry.operators.length

def insert (op : CustomOperator) : List CustomOperator → List CustomOperator
  | [] => [op]
  | head :: rest =>
    if op.name < head.name then op :: head :: rest
    else if op.name = head.name then op :: rest
    else head :: insert op rest

/-- Registers an operator, in place of one of the same name. A name has to be given, must not be a
standard one and needs an implementation. -/
def add (name : Bytes) (implementation : Option (List Json → Json → Except Error Json))
    (registry : Registry) : Except Error Registry :=
  if name.isEmpty then .error (.registration .emptyName)
  else if Operator.isStandardName name then .error (.registration (.standardName name))
  else
    match implementation with
    | none => .error (.registration (.noImplementation name))
    | some apply => .ok ⟨insert ⟨name, apply⟩ registry.operators⟩

def remove (name : Bytes) (registry : Registry) : Registry :=
  ⟨registry.operators.filter fun op => op.name ≠ name⟩

end Registry

namespace CustomOperator

/-- The result of an operator. Failures that are no rule errors are reported as the operator's. -/
def result (op : CustomOperator) (args : List Json) (data : Json) : Except Error Json :=
  match op.apply args data with
  | .ok v => .ok v
  | .error e =>
    if e.kind?.isSome then .error e
    else .error (.typeMismatch (.customFailed op.name e.message))

end CustomOperator

end CampaignRules
