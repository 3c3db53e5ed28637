import CampaignRules.Graph.Cycles
import CampaignRules.Graph.Order
import CampaignRules.Graph.Reach
import CampaignRules.Tool.Basic

/-! # Tools for dependency graphs

A graph is that of a campaign and a branch, by default those that the engine was set up with. -/

namespace CampaignRules.Tool

def scopeParameters : List Parameter :=
  [{ name := "campaignId", type := some "string",
     description := "Campaign scope (default from config)" },
   { name := "branchId", type := some "string",
     description := "Branch scope (default from config)" }]

def nodeParameter : Parameter where
  name := "nodeId"
  type := some "string"
  description := "Node id, e.g. VARIABLE:gold"
  isRequired := true

def nodesParameter : Parameter where
  name := "nodeIds"
  type := some "array"
  description := "Selected node ids"
  isRequired := true
  details := [("items", .object [("type", "string")])]

def boundParameter : Parameter where
  name := "maxDepth"
  type := some "integer"
  description := "Stop after this many hops (unbounded if omitted)"
  details := [("minimum", .ofNat 0)]

def bound? (arguments : Json) : Option Nat :=
  boundArgument? "maxDepth" arguments

/-- The build of the graph that the arguments ask for. -/
def scopedBuild (arguments : Json) : Task Engine GraphBuild :=
  Engine.dependencyGraph (textArgumentOrEmpty "campaignId" arguments)
    (textArgumentOrEmpty "branchId" arguments)

/-- A count with its noun, nothing for zero. -/
def countUnlessZero (count : Nat) (noun : String) : Bytes :=
  if count = 0 then [] else ", " ++ Bytes.decimal count ++ " " ++ Bytes.ofString noun

def buildText (build : GraphBuild) : Bytes :=
  let g := build.graph
  "Graph: " ++ Bytes.decimal g.nodes.length ++ " nodes, " ++ Bytes.decimal g.edges.length ++
    " edges" ++ countUnlessZero (g.nodes.countP (·.inCycle)) "nodes in cycles" ++
    countUnlessZero build.warnings.length "warning(s)"

def dependencyGraph : Tool where
  name := "dependency_graph"
  description := "Build (or fetch cached) the variable/condition/effect dependency graph for " ++
    "a campaign branch."
  parameters := scopeParameters
  run _ arguments := do
    let build ← scopedBuild arguments
    return .ok (buildText build) build.toJson

def evaluationOrder : Tool where
  name := "evaluation_order"
  description := "Topological order of the graph, dependencies first. Fails when cycles exist."
  parameters := scopeParameters
  run _ arguments := do
    let order := (← scopedBuild arguments).graph.topologicalOrder
    if order.isComplete then
      return .ok (Bytes.decimal order.order.length ++ " nodes ordered") order.toJson
    else
      return .error ("Cycle detected: " ++ Bytes.decimal order.remaining.length ++
        " nodes could not be ordered") order.toJson

def cyclesText (cycles : List (List Bytes)) : Bytes :=
  if cycles.isEmpty then "No cycles"
  else Bytes.decimal cycles.length ++ " cycle(s):" ++
    itemLines "" (cycles.map Graph.describeCycle)

def detectCycles : Tool where
  name := "detect_cycles"
  description := "Report every dependency cycle in the graph."
  parameters := scopeParameters
  run _ arguments := do
    let cycles := (← scopedBuild arguments).graph.cycles
    return .ok (cyclesText cycles) (Graph.cyclesToJson cycles)

def invalidateGraph : Tool where
  name := "invalidate_graph"
  description := "Drop the cached graph so the next request rebuilds it."
  parameters := scopeParameters
  run _ arguments := do
    let dropped ← Engine.invalidateGraph (textArgumentOrEmpty "campaignId" arguments)
      (textArgumentOrEmpty "branchId" arguments)
    let content : Bytes := if dropped then "Graph invalidated" else "No cached graph"
    return .ok content (.ofMembers [("invalidated", dropped)])

/-- What lies in one direction of a node, by name. -/
def neighbourhoodResult (direction : String) (id : Bytes) (found : List Bytes) : Result :=
  let direction := Bytes.ofString direction
  .ok (Bytes.decimal found.length ++ " " ++ direction ++ " of " ++ id)
    (.ofMembers [("nodeId", id), (direction, .ofTexts found)])

def graphDependents : Tool where
  name := "graph_upstream"
  description := "Nodes with edges leading into the given node, e.g. the readers and writers " ++
    "of a variable."
  parameters := scopeParameters ++ [nodeParameter, boundParameter]
  run _ arguments := do
    let id ← .ofExcept (textArgument "nodeId" arguments)
    let found := (← scopedBuild arguments).graph.allDependents id (bound? arguments)
    return neighbourhoodResult "upstream" id found

def graphDependencies : Tool where
  name := "graph_downstream"
  description := "Nodes reachable along edges out of the given node, e.g. the variables a " ++
    "condition reads."
  parameters := scopeParameters ++ [nodeParameter, boundParameter]
  run _ arguments := do
    let id ← .ofExcept (textArgument "nodeId" arguments)
    let found := (← scopedBuild arguments).graph.allDependencies id (bound? arguments)
    return neighbourhoodResult "downstream" id found

def selectionText (s : Graph.Selection) : Bytes :=
  Bytes.decimal s.selected.length ++ " selected, " ++ Bytes.decimal s.dependents.length ++
    " upstream, " ++ Bytes.decimal s.dependencies.length ++ " downstream"

def graphSelection : Tool where
  name := "graph_selection"
  description := "Upstream and downstream closure of a set of nodes."
  parameters := scopeParameters ++ [nodesParameter, boundParameter]
  run _ arguments := do
    let ids := textsArgument "nodeIds" arguments
    let selection := (← scopedBuild arguments).graph.selection ids (bound? arguments)
    return .ok (selectionText selection) selection.toJson

def graphTools : List Tool :=
  [dependencyGraph, graphDependents, graphDependencies, graphSelection, evaluationOrder,
    detectCycles, invalidateGraph]

end CampaignRules.Tool
