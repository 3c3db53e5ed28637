import CampaignRules.Graph.Basic

/-! # Evaluation order

Dependents are taken before what they depend on: a node is ready when none of its incoming edges is
left, and each node that is taken takes its outgoing edges away. Of several ready nodes the first by
id is taken; the order is the reverse of that. Nodes on a cycle and all that they depend on are never
ready and remain. -/

namespace CampaignRules.Graph

/-- A sorting on its way: how many incoming edges of each node are left, the set of nodes that are
ready, and the nodes taken, the first one first. -/
structure Sorting where
  inDegree : Bytes → Nat
  ready : List Bytes
  taken : List Bytes

namespace Sorting

def start (g : Graph) : Sorting :=
  let inDegree := fun id => (g.incoming id).length
  ⟨inDegree, Bytes.sortedSet (g.ids.filter fun id => inDegree id = 0), []⟩

/-- Takes an edge into a node away. -/
def release (s : Sorting) (id : Bytes) : Sorting :=
  let left := s.inDegree id - 1
  { s with
    inDegree := fun x => if x = id then left else s.inDegree x
    ready := if left = 0 then Bytes.insertSorted id s.ready else s.ready }

/-- Takes a node and its outgoing edges, and goes on with the rest of the ready nodes. -/
def take (g : Graph) (id : Bytes) (rest : List Bytes) (s : Sorting) : Sorting :=
  (g.targets id).foldl release { s with ready := rest, taken := s.taken ++ [id] }

/-- Takes ready nodes as long as there are any. -/
def run (g : Graph) : Nat → Sorting → Sorting
  | 0, s => s
  | fuel + 1, s =>
    match s.ready with
    | [] => s
    | id :: rest => run g fuel (s.take g id rest)

end Sorting

structure Order where
  order : List Bytes
  remaining : List Bytes

/-- No node is taken twice, so there are never more turns than the graph has nodes. -/
def topologicalOrder (g : Graph) : Order :=
  let s := Sorting.run g g.nodes.length (.start g)
  ⟨s.taken.reverse, Bytes.sortedSet (g.ids.filter fun id => 0 < s.inDegree id)⟩

namespace Order

def isComplete (o : Order) : Bool :=
  o.remaining.isEmpty

def toJson (o : Order) : Json :=
  let error : Json :=
    if o.isComplete then .null
    else .string ("Cycle detected: " ++ Bytes.decimal o.remaining.length ++
      " nodes could not be sorted")
  .ofMembers [("success", o.isComplete), ("order", .ofTexts o.order),
    ("remainingNodes", .ofTexts o.remaining), ("error", error)]

end Order

end CampaignRules.Graph
