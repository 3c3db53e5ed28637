import CampaignRules.Json.Basic

/-! # Dependency graphs

Variables, conditions, effects and entities are nodes; an edge says that its source depends on its
target. Nodes and edges are kept in the order in which they were added. There is one node for an id
and one edge of a type between two nodes, and both ends of an edge are nodes. -/

namespace CampaignRules

inductive NodeType where
  | variable
  | condition
  | effect
  | entity
  deriving DecidableEq

namespace NodeType

def name : NodeType → Bytes
  | .variable => "VARIABLE"
  | .condition => "CONDITION"
  | .effect => "EFFECT"
  | .entity => "ENTITY"

def ofName? (name : Bytes) : Option NodeType :=
  [NodeType.variable, .condition, .effect, .entity].find? fun type => type.name = name

end NodeType

inductive EdgeType where
  | reads
  | writes
  | dependsOn
  deriving DecidableEq

namespace EdgeType

def name : EdgeType → Bytes
  | .reads => "READS"
  | .writes => "WRITES"
  | .dependsOn => "DEPENDS_ON"

def ofName? (name : Bytes) : Option EdgeType :=
  [EdgeType.reads, .writes, .dependsOn].find? fun type => type.name = name

end EdgeType

structure Node where
  id : Bytes
  type : NodeType
  entityId : Bytes
  label : Bytes
  metadata : Json
  inCycle : Bool

structure Edge where
  source : Bytes
  target : Bytes
  type : EdgeType
  metadata : Json

structure Graph where
  nodes : List Node
  edges : List Edge

namespace Graph

def empty : Graph := ⟨[], []⟩

def node? (id : Bytes) (g : Graph) : Option Node :=
  g.nodes.find? fun n => n.id = id

def hasNode (id : Bytes) (g : Graph) : Bool :=
  g.nodes.any fun n => n.id = id

def ids (g : Graph) : List Bytes :=
  g.nodes.map (·.id)

/-- The graph with one node more, unless the id is taken. -/
def addNode? (n : Node) (g : Graph) : Option Graph :=
  if g.hasNode n.id then none else some { g with nodes := g.nodes ++ [n] }

/-- Adds a node; one that is there already stays as it is. -/
def addNode (n : Node) (g : Graph) : Graph :=
  (g.addNode? n).getD g

/-- Removes a node and all edges at it. -/
def removeNode (id : Bytes) (g : Graph) : Graph where
  nodes := g.nodes.filter fun n => n.id ≠ id
  edges := g.edges.filter fun e => e.source ≠ id && e.target ≠ id

/-- The edge runs between the two nodes, and is of the type if one is asked for. -/
def matchesEnds (source target : Bytes) (type : Option EdgeType) (e : Edge) : Bool :=
  e.source = source && e.target = target && type.all (· = e.type)

def hasEdge (source target : Bytes) (type : Option EdgeType) (g : Graph) : Bool :=
  g.edges.any (matchesEnds source target type)

/-- The graph with one edge more, if it has both ends and not yet the edge. -/
def addEdge? (e : Edge) (g : Graph) : Option Graph :=
  if g.hasNode e.source && g.hasNode e.target && !g.hasEdge e.source e.target (some e.type) then
    some { g with edges := g.edges ++ [e] }
  else none

def addEdge (e : Edge) (g : Graph) : Graph :=
  (g.addEdge? e).getD g

def addEdges (edges : List Edge) (g : Graph) : Graph :=
  edges.foldl (fun g e => g.addEdge e) g

def removeEdge (source target : Bytes) (type : Option EdgeType) (g : Graph) : Graph :=
  { g with edges := g.edges.filter fun e => !matchesEnds source target type e }

def outgoing (id : Bytes) (g : Graph) : List Edge :=
  g.edges.filter fun e => e.source = id

def incoming (id : Bytes) (g : Graph) : List Edge :=
  g.edges.filter fun e => e.target = id

/-- The targets of the edges that leave a node, one for each edge. -/
def targets (id : Bytes) (g : Graph) : List Bytes :=
  (g.outgoing id).map (·.target)

/-- The sources of the edges that enter a node, one for each edge. -/
def sources (id : Bytes) (g : Graph) : List Bytes :=
  (g.incoming id).map (·.source)

/-- What a node depends on directly. -/
def dependencies (id : Bytes) (g : Graph) : List Bytes :=
  (g.targets id).eraseDups

/-- What depends on a node directly. -/
def dependents (id : Bytes) (g : Graph) : List Bytes :=
  (g.sources id).eraseDups

variable {g : Graph} {id source target : Bytes} {type : Option EdgeType}

theorem hasNode_iff : g.hasNode id = true ↔ id ∈ g.ids := by
  simp [hasNode, ids]

theorem hasEdge_iff : g.hasEdge source target type = true ↔
    ∃ e ∈ g.edges, e.source = source ∧ e.target = target ∧ ∀ t ∈ type, t = e.type := by
  simp [hasEdge, matchesEnds, and_assoc, Option.all_eq_true]

theorem mem_targets : target ∈ g.targets id ↔ ∃ e ∈ g.edges, e.source = id ∧ e.target = target := by
  simp [targets, outgoing, and_assoc]

theorem ids_removeNode : (g.removeNode id).ids = g.ids.filter (· ≠ id) := by
  simp [removeNode, ids, List.filter_map, Function.comp_def]

theorem addNode_eq (n : Node) (g : Graph) :
    g.addNode n = if g.hasNode n.id then g else { g with nodes := g.nodes ++ [n] } := by
  rw [addNode, addNode?]
  split <;> rfl

theorem addEdge_eq (e : Edge) (g : Graph) :
    g.addEdge e = if g.hasNode e.source && g.hasNode e.target &&
      !g.hasEdge e.source e.target (some e.type) then { g with edges := g.edges ++ [e] } else g := by
  rw [addEdge, addEdge?]
  split <;> rfl

end Graph

def Node.toJson (n : Node) : Json :=
  let entityId := if n.entityId.isEmpty then Json.null else .string n.entityId
  .ofMembers [("id", n.id), ("type", n.type.name), ("entityId", entityId), ("label", n.label),
    ("metadata", n.metadata), ("inCycle", n.inCycle)]

def Edge.toJson (e : Edge) : Json :=
  .ofMembers [("fromId", e.source), ("toId", e.target), ("type", e.type.name),
    ("metadata", e.metadata)]

namespace Graph

def countOf (type : NodeType) (g : Graph) : Nat :=
  g.nodes.countP fun n => n.type = type

def statsToJson (g : Graph) : Json :=
  let inCycle := g.nodes.countP (·.inCycle)
  .ofMembers [("nodeCount", .ofNat g.nodes.length), ("edgeCount", .ofNat g.edges.length),
    ("variableCount", .ofNat (g.countOf .variable)),
    ("conditionCount", .ofNat (g.countOf .condition)),
    ("effectCount", .ofNat (g.countOf .effect)), ("entityCount", .ofNat (g.countOf .entity)),
    ("cycleNodeCount", .ofNat inCycle), ("hasCycles", decide (inCycle > 0))]

def toJson (g : Graph) : Json :=
  .ofMembers [("nodes", .array (g.nodes.map Node.toJson)),
    ("edges", .array (g.edges.map Edge.toJson)), ("stats", g.statsToJson)]

end Graph

end CampaignRules
