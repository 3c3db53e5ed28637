import CampaignRules.Expr.Trace

/-! # Recording a trace

A trace is recorded while the evaluation is under way. A node takes the next slot when it is entered,
and completes it when it has its value: then the slots behind its own are those of the nodes inside
it. It finds its children among them by going from one to the next over the span of each. A node that
fails leaves its slot as it was taken. -/

namespace CampaignRules

/-- A step that may still be under way. -/
structure Slot extends TraceStep where
  /-- the number of steps from this one to the last inside it -/
  span : Nat

/-- An evaluation that records behind the slots that are taken already. -/
abbrev Recording := ExceptT Error (StateM (Array Slot))

namespace Slot

/-- The slot of a node that is entered. -/
def taken (step : Nat) (view : NodeView) : Slot where
  step
  operation := view.operation
  input := view.input.getD (.array [])
  output := .null
  span := 1

/-- The outputs of the nodes at the top of a list of slots, after so many slots that lie inside the
node before. -/
def topOutputs : Nat → List Slot → List Json
  | _, [] => []
  | skip + 1, _ :: rest => topOutputs skip rest
  | 0, slot :: rest => slot.output :: topOutputs (slot.span - 1) rest

/-- The slot of a node with its value, and with the slots behind it. -/
def completed (view : NodeView) (output : Json) (inside : List Slot) (slot : Slot) : Slot :=
  { slot with
    input := match view.input with
      | some _ => slot.input
      | none => .array (topOutputs 0 inside)
    output
    span := inside.length + 1 }

end Slot

namespace Recording

/-- Records a node around what its evaluation records. -/
def node (view : NodeView) (value : Recording Json) : Recording Json := fun slots =>
  let first := slots.size
  match value (slots.push (.taken first view)) with
  | (.ok v, slots) =>
    let inside := (slots.extract (first + 1) slots.size).toList
    (.ok v, slots.modify first (Slot.completed view v inside))
  | (.error e, slots) => (.error e, slots)

instance : Observer Recording where
  fail e := throw e
  node := node

end Recording

namespace Expr

/-- The value of an expression on a context, or its failure, and what was recorded behind the slots
that were held before. -/
def record (registry : Registry) (expr : Expr) (context : Json) (held : Array Slot) :
    Except Error Json × Array Slot :=
  (expr.meaning registry ⟨context, false⟩ : Recording Json) held

/-- The value and the trace of an evaluation that succeeds. -/
def evaluate (registry : Registry) (expr : Expr) (context : Json) :
    Except Error (Json × Array Slot) :=
  match expr.record registry context #[] with
  | (.ok value, trace) => .ok (value, trace)
  | (.error e, _) => .error e

end Expr

end CampaignRules
