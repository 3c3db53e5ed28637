import CampaignRules.Graph.Basic

/-! # Strongly connected components

Nodes that reach each other make up a component. A depth-first search numbers the nodes in the order
in which it enters them and keeps those whose component is not known yet on a stack. The low number
of a node is the least number on the stack that it was seen to reach. A node that is done and has
its own number as its low number is the first of its component, which is the stack down to it. A
node lies on a cycle if its component has other members or if it has an edge to itself. -/

namespace CampaignRules.Graph

/-- A search for components on its way. -/
structure Descent where
  /-- nodes in the order in which they were entered -/
  entered : List Bytes
  /-- entered nodes whose component is not known yet, the last one first -/
  stack : List Bytes
  components : List (List Bytes)

namespace Descent

def start : Descent := ⟨[], [], []⟩

/-- The number of a node that was entered. -/
def number (id : Bytes) (d : Descent) : Nat :=
  d.entered.idxOf id

def enter (id : Bytes) (d : Descent) : Descent :=
  { d with entered := d.entered ++ [id], stack := id :: d.stack }

/-- Takes the stack down to a node, itself included, as a component. -/
def close (id : Bytes) (d : Descent) : Descent :=
  { d with
    stack := (d.stack.dropWhile (· ≠ id)).tail
    components := d.components ++ [d.stack.takeWhile (· ≠ id) ++ [id]] }

end Descent

/-- Lowers a low number by what the targets of edges reach. A target that was not entered yet is
connected; of the others those on the stack count. -/
def scan (connect : Bytes → Descent → Nat × Descent) :
    List Bytes → Nat → Descent → Nat × Descent
  | [], low, d => (low, d)
  | target :: rest, low, d =>
    if !d.entered.contains target then
      let (reached, d) := connect target d
      scan connect rest (min low reached) d
    else if d.stack.contains target then scan connect rest (min low (d.number target)) d
    else scan connect rest low d

/-- Enters a node and all that it leads to, and tells its low number. -/
def connect (g : Graph) : Nat → Bytes → Descent → Nat × Descent
  | 0, _, d => (0, d)
  | fuel + 1, id, d =>
    let number := d.entered.length
    let (low, d) := scan (connect g fuel) (g.targets id) number (d.enter id)
    if low = number then (low, d.close id) else (low, d)

/-- Connects a node that was not entered yet. No node is entered twice, so there are never more
nodes under way than the graph has. -/
def visit (g : Graph) (d : Descent) (id : Bytes) : Descent :=
  if d.entered.contains id then d else (connect g g.nodes.length id d).2

def components (g : Graph) : List (List Bytes) :=
  (g.ids.foldl (visit g) .start).components

/-- The members of a component that lie on a cycle, which are all or none. -/
def cyclicPart (g : Graph) (component : List Bytes) : List Bytes :=
  if component.length > 1 then component
  else component.filter fun id => g.hasEdge id id none

/-- The set of nodes on cycles. -/
def cycleMembers (g : Graph) : List Bytes :=
  Bytes.sortedSet (g.components.flatMap g.cyclicPart)

/-- Marks exactly the nodes on cycles, and tells how many there are. -/
def countAndMark (g : Graph) : Nat × Graph :=
  let members := g.cycleMembers
  (members.length, { g with nodes := g.nodes.map fun n => { n with inCycle := members.contains n.id } })

/-- Marks exactly the nodes on cycles. -/
def markCycles (g : Graph) : Graph :=
  g.countAndMark.2

end CampaignRules.Graph
