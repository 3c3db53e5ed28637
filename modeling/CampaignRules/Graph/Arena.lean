import CampaignRules.Graph.Basic

/-! # Arenas

An arena is a graph in which nothing has to be searched for. An index leads from an id to the position
of its node, and for every node there are the positions of the edges that leave it and of those that
enter it. A new node or edge is noted at the end. What is removed shifts the positions after it, so then
all of them are found anew.

An operation gives nothing if it comes upon a position that is not there. No sequence of operations on
the empty arena leads to that. -/

namespace CampaignRules

structure Arena extends Graph where
  index : List (Bytes × Nat)
  leaving : List (List Nat)
  entering : List (List Nat)

namespace Arena

def empty : Arena := ⟨.empty, [], [], []⟩

def position? (id : Bytes) (a : Arena) : Option Nat :=
  a.index.lookup id

/-- Gives an id a position, unless it has one. -/
def emplace (id : Bytes) (position : Nat) (index : List (Bytes × Nat)) : List (Bytes × Nat) :=
  if (index.lookup id).isSome then index else (id, position) :: index

/-- Notes the position of an edge at the position of a node. -/
def note (node edge : Nat) (lists : List (List Nat)) : Option (List (List Nat)) :=
  if node < lists.length then some (lists.modify node (· ++ [edge])) else none

/-- The index of nodes with the given ids. -/
def indexOf (ids : List Bytes) : List (Bytes × Nat) :=
  ids.zipIdx.foldl (fun index (id, position) => emplace id position index) []

/-- Notes edges, of which one end each is given, at so many nodes. -/
def incidence (index : List (Bytes × Nat)) (size : Nat) (ends : List Bytes) :
    Option (List (List Nat)) :=
  ends.zipIdx.foldlM (fun lists (id, edge) => do note (← index.lookup id) edge lists)
    (List.replicate size [])

/-- The arena of a graph, with all positions found anew. -/
def ofGraph (g : Graph) : Option Arena := do
  let index := indexOf g.ids
  let leaving ← incidence index g.nodes.length (g.edges.map (·.source))
  let entering ← incidence index g.nodes.length (g.edges.map (·.target))
  return { g with index, leaving, entering }

def hasNode (id : Bytes) (a : Arena) : Bool :=
  (a.position? id).isSome

def node? (id : Bytes) (a : Arena) : Option Node :=
  (a.position? id).bind fun i => a.nodes[i]?

/-- The edges that the lists note at a node; a node that is not there has none. -/
def edgesAt (lists : List (List Nat)) (id : Bytes) (a : Arena) : Option (List Edge) :=
  match a.position? id with
  | none => some []
  | some i => do (← lists[i]?).mapM fun e => a.edges[e]?

def outgoing (id : Bytes) (a : Arena) : Option (List Edge) :=
  a.edgesAt a.leaving id

def incoming (id : Bytes) (a : Arena) : Option (List Edge) :=
  a.edgesAt a.entering id

def hasEdge (source target : Bytes) (type : Option EdgeType) (a : Arena) : Option Bool := do
  return (← a.outgoing source).any fun e => e.target = target && type.all (· = e.type)

/-- What a node depends on directly. -/
def dependencies (id : Bytes) (a : Arena) : Option (List Bytes) := do
  return ((← a.outgoing id).map (·.target)).eraseDups

/-- What depends on a node directly. -/
def dependents (id : Bytes) (a : Arena) : Option (List Bytes) := do
  return ((← a.incoming id).map (·.source)).eraseDups

/-- Adds a node unless its id is taken, and tells whether it did. -/
def addNode (n : Node) (a : Arena) : Bool × Arena :=
  if a.hasNode n.id then (false, a)
  else
    (true,
      { nodes := a.nodes ++ [n]
        edges := a.edges
        index := (n.id, a.nodes.length) :: a.index
        leaving := a.leaving ++ [[]]
        entering := a.entering ++ [[]] })

/-- Removes a node and all edges at it, and tells whether it was there. -/
def removeNode (id : Bytes) (a : Arena) : Option (Bool × Arena) :=
  match a.position? id with
  | none => some (false, a)
  | some i => do
    let left ← ofGraph ⟨a.nodes.eraseIdx i, a.edges.filter fun e => e.source ≠ id && e.target ≠ id⟩
    return (true, left)

/-- Adds an edge if both ends are there and the edge is not, and tells whether it did. -/
def addEdge (e : Edge) (a : Arena) : Option (Bool × Arena) :=
  match a.position? e.source, a.position? e.target with
  | some source, some target => do
    if ← a.hasEdge e.source e.target (some e.type) then return (false, a)
    let leaving ← note source a.edges.length a.leaving
    let entering ← note target a.edges.length a.entering
    return (true, { a with edges := a.edges ++ [e], leaving, entering })
  | _, _ => some (false, a)

/-- Removes the edges between two nodes, those of the type if one is given, and tells how many. -/
def removeEdge (source target : Bytes) (type : Option EdgeType) (a : Arena) : Option (Nat × Arena) :=
  let kept := a.edges.filter fun e => !Graph.matchesEnds source target type e
  let removed := a.edges.length - kept.length
  if removed = 0 then some (0, a)
  else do return (removed, ← ofGraph ⟨a.nodes, kept⟩)

end Arena

end CampaignRules
