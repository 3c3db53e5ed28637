import CampaignRules.Expr.Eval
import CampaignRules.Recorded

/-! # Traces

A traced evaluation records a visit for each node that it reaches, with the visits of the nodes
reached from there inside it. Listed in the order in which the nodes were entered and numbered from
zero, the visits are the trace. A failure leaves the visits under way unfinished: they have no
output, and the inputs they would have collected are missing. -/

namespace CampaignRules

inductive Visit where
  | node (operation : Bytes) (input output : Json) (children : List Visit)

namespace Visit

def output : Visit → Json
  | .node _ _ output _ => output

mutual

/-- The number of visits in it, itself included. -/
def span : Visit → Nat
  | .node _ _ _ children => spans children + 1

def spans : List Visit → Nat
  | [] => 0
  | visit :: rest => span visit + spans rest

end

end Visit

/-- An evaluation that records its visits. -/
abbrev Traced := Recorded Visit Error

namespace Traced

/-- The visit of a node, around the visits that its evaluation recorded. -/
def node (view : NodeView) (value : Traced Json) : Traced Json :=
  match value.outcome with
  | .ok v =>
    let input := view.input.getD (.array (value.entries.map Visit.output))
    ⟨[.node view.operation input v value.entries], .ok v⟩
  | .error e => ⟨[.node view.operation (view.input.getD (.array [])) .null value.entries], .error e⟩

instance : Observer Traced where
  fail := Recorded.fail
  node := node

end Traced

/-- One line of a trace. -/
structure TraceStep where
  step : Nat
  operation : Bytes
  input : Json
  output : Json

namespace TraceStep

def toJson (s : TraceStep) : Json :=
  .ofMembers [("step", .ofNat s.step), ("operation", s.operation), ("input", s.input),
    ("output", s.output)]

mutual

/-- The steps of a visit, the first of which gets the given number. -/
def ofVisit (first : Nat) : Visit → List TraceStep
  | .node operation input output children =>
    ⟨first, operation, input, output⟩ :: ofVisits (first + 1) children

def ofVisits (first : Nat) : List Visit → List TraceStep
  | [] => []
  | visit :: rest => ofVisit first visit ++ ofVisits (first + visit.span) rest

end

end TraceStep

namespace Expr

/-- The value of an expression on a context, with the visits made on the way. -/
def evalTraced (registry : Registry) (expr : Expr) (context : Json) : Traced Json :=
  expr.meaning registry ⟨context, false⟩

/-- The trace of an evaluation. -/
def trace (registry : Registry) (expr : Expr) (context : Json) : List TraceStep :=
  TraceStep.ofVisits 0 (expr.evalTraced registry context).entries

end Expr

end CampaignRules
