import CampaignRules.Graph.Basic

/-! # Cycles found on the way

A depth-first search colours the nodes: a node is white until the search enters it, grey while the
search is inside it and black once it is left. Every node that was entered along an edge remembers
the source of the edge as its parent. An edge back to a grey node closes a cycle, which is read off
the chain of parents. -/

namespace CampaignRules.Graph

inductive Color where
  | white
  | grey
  | black
  deriving DecidableEq

/-- A search on its way, with the cycles that it has closed. -/
structure Search where
  color : Bytes → Color
  parent : Bytes → Option Bytes
  cycles : List (List Bytes)

namespace Search

def start : Search := ⟨fun _ => .white, fun _ => none, []⟩

def paint (id : Bytes) (color : Color) (s : Search) : Search :=
  { s with color := fun x => if x = id then color else s.color x }

def adopt (id parent : Bytes) (s : Search) : Search :=
  { s with parent := fun x => if x = id then some parent else s.parent x }

/-- The chain of parents from a node on, up to the given one, which is left out. -/
def ancestry (parent : Bytes → Option Bytes) (stop : Bytes) : Nat → Option Bytes → List Bytes
  | fuel + 1, some id => if id = stop then [] else id :: ancestry parent stop fuel (parent id)
  | _, _ => []

/-- The cycle that an edge from a node back to a grey one closes, with that one at both ends. No
chain of parents is longer than the limit. -/
def closing (limit : Nat) (id target : Bytes) (s : Search) : List Bytes :=
  (ancestry s.parent target limit (some id) ++ [target]).reverse ++ [target]

def close (limit : Nat) (id target : Bytes) (s : Search) : Search :=
  { s with cycles := s.cycles ++ [s.closing limit id target] }

end Search

/-- Follows the edges from a node to the given targets. -/
def follow (explore : Bytes → Search → Search) (limit : Nat) (id : Bytes) :
    List Bytes → Search → Search
  | [], s => s
  | target :: rest, s =>
    match s.color target with
    | .white => follow explore limit id rest (explore target (s.adopt target id))
    | .grey => follow explore limit id rest (s.close limit id target)
    | .black => follow explore limit id rest s

/-- Enters a node, and leaves it after all that it leads to. -/
def explore (g : Graph) : Nat → Bytes → Search → Search
  | 0, _, s => s
  | fuel + 1, id, s =>
    (follow (explore g fuel) g.nodes.length id (g.targets id) (s.paint id .grey)).paint id .black

/-- Explores a node that was not entered yet. No node is entered twice, so there are never more
nodes under way than the graph has. -/
def search (g : Graph) (s : Search) (id : Bytes) : Search :=
  if s.color id = .white then explore g g.nodes.length id s else s

/-- The cycles that a search of the whole graph closes. -/
def cycles (g : Graph) : List (List Bytes) :=
  (g.ids.foldl (search g) .start).cycles

def hasCycles (cycles : List (List Bytes)) : Bool :=
  !cycles.isEmpty

def describeCycle (path : List Bytes) : Bytes :=
  "Cycle detected: " ++ Bytes.join " -> " path

def cyclesToJson (cycles : List (List Bytes)) : Json :=
  .ofMembers [("hasCycles", hasCycles cycles), ("cycleCount", .ofNat cycles.length),
    ("cycles", .array (cycles.map fun path =>
      .ofMembers [("path", .ofTexts path), ("description", describeCycle path)]))]

end CampaignRules.Graph
