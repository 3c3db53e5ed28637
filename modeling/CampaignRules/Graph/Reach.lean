import CampaignRules.Graph.Basic

/-! # Reachability

What a node reaches is searched breadth first. Nodes wait in a queue, each with its depth, which is the
number of edges by which it was found, and those at the front are followed one edge further. A node is
marked when it enters the queue and enters it once, so it is found along a shortest way. -/

namespace CampaignRules.Graph

inductive Direction where
  | forward
  | backward
  deriving DecidableEq

/-- The nodes one edge away, along the edges or against them, one for each edge. -/
def next (direction : Direction) (id : Bytes) (g : Graph) : List Bytes :=
  match direction with
  | .forward => g.targets id
  | .backward => g.sources id

/-- A search on its way. -/
structure Spread where
  /-- nodes that are still to be followed, with their depths -/
  queue : List (Bytes × Nat)
  visited : List Bytes
  /-- visited nodes that are no origins, in the order in which they were found -/
  found : List Bytes

namespace Spread

/-- Marks a node and puts it at the end of the queue. -/
def enter (depth : Nat) (s : Spread) (id : Bytes) : Spread :=
  { s with queue := s.queue ++ [(id, depth)], visited := s.visited ++ [id] }

/-- Enters an origin. One that is no node or was marked before counts for nothing. -/
def addOrigin (g : Graph) (s : Spread) (id : Bytes) : Spread :=
  if g.hasNode id && !s.visited.contains id then s.enter 0 id else s

def start (g : Graph) (origins : List Bytes) : Spread :=
  origins.foldl (addOrigin g) ⟨[], [], []⟩

/-- Notes a node as found at a depth. -/
def find (depth : Nat) (s : Spread) (id : Bytes) : Spread :=
  { s.enter depth id with found := s.found ++ [id] }

/-- Comes upon a node, which is found unless it was marked before. -/
def discover (depth : Nat) (s : Spread) (id : Bytes) : Spread :=
  if s.visited.contains id then s else s.find depth id

/-- Takes the first node off the queue, and follows its edges unless it is as far away as the bound
allows. -/
def follow (direction : Direction) (g : Graph) (bound : Option Nat) (id : Bytes) (depth : Nat)
    (rest : List (Bytes × Nat)) (s : Spread) : Spread :=
  if bound.any (· ≤ depth) then { s with queue := rest }
  else (g.next direction id).foldl (discover (depth + 1)) { s with queue := rest }

/-- Follows nodes as long as there are any in the queue. -/
def run (direction : Direction) (g : Graph) (bound : Option Nat) : Nat → Spread → Spread
  | 0, s => s
  | fuel + 1, s =>
    match s.queue with
    | [] => s
    | (id, depth) :: rest => run direction g bound fuel (s.follow direction g bound id depth rest)

/-- Follows nodes, however far away, until an edge leads to the target. -/
def meets (target : Bytes) (g : Graph) : Nat → Spread → Bool
  | 0, _ => false
  | fuel + 1, s =>
    match s.queue with
    | [] => false
    | (id, depth) :: rest =>
      (g.targets id).contains target || meets target g fuel (s.follow .forward g none id depth rest)

end Spread

/-- All nodes that can be reached from the origins within a bound, the origins left out. No node is
followed twice, so there are never more turns than the graph has nodes. -/
def traverse (direction : Direction) (g : Graph) (origins : List Bytes) (bound : Option Nat) :
    List Bytes :=
  (Spread.run direction g bound g.nodes.length (.start g origins)).found

/-- Everything that a node depends on. -/
def allDependencies (id : Bytes) (bound : Option Nat) (g : Graph) : List Bytes :=
  g.traverse .forward [id] bound

/-- Everything that depends on a node. -/
def allDependents (id : Bytes) (bound : Option Nat) (g : Graph) : List Bytes :=
  g.traverse .backward [id] bound

/-- Both ids are nodes, and the second can be reached from the first. -/
def hasPath (source target : Bytes) (g : Graph) : Bool :=
  g.hasNode source && g.hasNode target &&
    (source = target || Spread.meets target g g.nodes.length (.start g [source]))

/-- An edge from the one to the other would close a cycle. -/
def wouldCreateCycle (source target : Bytes) (g : Graph) : Bool :=
  g.hasPath target source

/-- The nodes among some ids, with what depends on them and what they depend on. -/
structure Selection where
  selected : List Bytes
  dependents : List Bytes
  dependencies : List Bytes

def Selection.toJson (s : Selection) : Json :=
  .ofMembers [("selected", .ofTexts s.selected), ("upstream", .ofTexts s.dependents),
    ("downstream", .ofTexts s.dependencies)]

def selection (ids : List Bytes) (bound : Option Nat) (g : Graph) : Selection :=
  let selected := ids.filter fun id => g.hasNode id
  { selected
    dependents := g.traverse .backward selected bound
    dependencies := g.traverse .forward selected bound }

end CampaignRules.Graph
