import Mathlib.Data.List.Nodup
import CampaignRules.Graph.Basic

/-! The representation invariant of graphs and the operations that keep it. A graph that is reached
from the empty graph by any sequence of operations has one node for an id, one edge of a type
between two nodes, and a node at both ends of every edge. -/

namespace CampaignRules

/-- The ends and the type of an edge, by which edges are told apart. -/
def Edge.triple (e : Edge) : Bytes × Bytes × EdgeType :=
  (e.source, e.target, e.type)

theorem Edge.triple_eq_iff {e : Edge} {source target : Bytes} {type : EdgeType} :
    e.triple = (source, target, type) ↔ e.source = source ∧ e.target = target ∧ e.type = type := by
  rw [triple, Prod.mk.injEq, Prod.mk.injEq]

namespace Graph

def triples (g : Graph) : List (Bytes × Bytes × EdgeType) :=
  g.edges.map Edge.triple

/-- One node for an id, one edge for a triple, and nodes at both ends of every edge. -/
structure WellFormed (g : Graph) : Prop where
  ids_nodup : g.ids.Nodup
  triples_nodup : g.triples.Nodup
  source_mem : ∀ e ∈ g.edges, e.source ∈ g.ids
  target_mem : ∀ e ∈ g.edges, e.target ∈ g.ids

/-- A change of a graph from outside. -/
inductive Operation where
  | addNode (n : Node)
  | removeNode (id : Bytes)
  | addEdge (e : Edge)
  | removeEdge (source target : Bytes) (type : Option EdgeType)
  | clear

def Operation.apply : Operation → Graph → Graph
  | .addNode n, g => g.addNode n
  | .removeNode id, g => g.removeNode id
  | .addEdge e, g => g.addEdge e
  | .removeEdge source target type, g => g.removeEdge source target type
  | .clear, _ => .empty

/-- The graph that a sequence of operations makes of the empty graph. -/
def ofOperations (operations : List Operation) : Graph :=
  operations.foldl (fun g operation => operation.apply g) .empty

variable {g : Graph}

theorem mem_triples_iff {source target : Bytes} {type : EdgeType} :
    (source, target, type) ∈ g.triples ↔
      ∃ e ∈ g.edges, e.source = source ∧ e.target = target ∧ e.type = type := by
  simp only [triples, List.mem_map, Edge.triple_eq_iff]

theorem mem_triples {source target : Bytes} {type : EdgeType} :
    (source, target, type) ∈ g.triples ↔ g.hasEdge source target (some type) = true := by
  rw [mem_triples_iff, hasEdge_iff]
  simp only [Option.mem_some_iff, forall_eq', eq_comm]

theorem node?_eq_some_iff (hg : g.WellFormed) {id : Bytes} {n : Node} :
    g.node? id = some n ↔ n ∈ g.nodes ∧ n.id = id := by
  constructor
  · intro hfound
    exact ⟨List.mem_of_find?_eq_some hfound, by simpa using List.find?_some hfound⟩
  · rintro ⟨hn, rfl⟩
    cases hfound : g.node? n.id with
    | none => simpa using List.find?_eq_none.1 hfound n hn
    | some m =>
        have hm := List.mem_of_find?_eq_some hfound
        have hid : m.id = n.id := by simpa using List.find?_some hfound
        rw [List.inj_on_of_nodup_map hg.ids_nodup hm hn hid]

namespace WellFormed

theorem empty : Graph.empty.WellFormed :=
  ⟨List.nodup_nil, List.nodup_nil, fun _ h => absurd h List.not_mem_nil,
    fun _ h => absurd h List.not_mem_nil⟩

theorem addNode (h : g.WellFormed) (n : Node) : (g.addNode n).WellFormed := by
  rw [addNode_eq]
  split
  · exact h
  · rename_i hnew
    rw [hasNode_iff] at hnew
    have hids : Graph.ids { g with nodes := g.nodes ++ [n] } = g.ids ++ [n.id] := by simp [ids]
    refine ⟨?_, h.triples_nodup, fun e he => ?_, fun e he => ?_⟩ <;> rw [hids]
    · exact h.ids_nodup.append (List.nodup_singleton _) (by simpa using hnew)
    · exact List.mem_append_left _ (h.source_mem e he)
    · exact List.mem_append_left _ (h.target_mem e he)

theorem removeNode (h : g.WellFormed) (id : Bytes) : (g.removeNode id).WellFormed := by
  have hkept : ∀ e ∈ (g.removeNode id).edges, e ∈ g.edges ∧ e.source ≠ id ∧ e.target ≠ id := by
    simp [Graph.removeNode]
  refine ⟨?_, ?_, fun e he => ?_, fun e he => ?_⟩
  · rw [ids_removeNode]
    exact h.ids_nodup.filter _
  · exact h.triples_nodup.sublist (List.filter_sublist.map _)
  · obtain ⟨hmem, hsource, -⟩ := hkept e he
    rw [ids_removeNode, List.mem_filter]
    exact ⟨h.source_mem e hmem, by simpa using hsource⟩
  · obtain ⟨hmem, -, htarget⟩ := hkept e he
    rw [ids_removeNode, List.mem_filter]
    exact ⟨h.target_mem e hmem, by simpa using htarget⟩

/-- Nothing is removed with a node that is not there. -/
theorem removeNode_eq_self (h : g.WellFormed) {id : Bytes} (hid : id ∉ g.ids) : g.removeNode id = g := by
  have hnodes : (g.nodes.filter fun n => n.id ≠ id) = g.nodes :=
    List.filter_eq_self.2 fun n hn => decide_eq_true fun heq => hid (heq ▸ List.mem_map_of_mem hn)
  have hedges : (g.edges.filter fun e => e.source ≠ id && e.target ≠ id) = g.edges := by
    refine List.filter_eq_self.2 fun e he => ?_
    have hsource : e.source ≠ id := fun heq => hid (heq ▸ h.source_mem e he)
    have htarget : e.target ≠ id := fun heq => hid (heq ▸ h.target_mem e he)
    rw [decide_eq_true hsource, decide_eq_true htarget]
    rfl
  rw [Graph.removeNode, hnodes, hedges]

theorem addEdge (h : g.WellFormed) (e : Edge) : (g.addEdge e).WellFormed := by
  rw [addEdge_eq]
  split
  · rename_i hadd
    simp only [Bool.and_eq_true, Bool.not_eq_true', hasNode_iff] at hadd
    obtain ⟨⟨hsource, htarget⟩, hnew⟩ := hadd
    refine ⟨h.ids_nodup, ?_, fun e' he' => ?_, fun e' he' => ?_⟩
    · have hfresh : e.triple ∉ g.triples := fun hmem => by
        rw [Edge.triple, mem_triples, hnew] at hmem
        exact Bool.false_ne_true hmem
      show (List.map Edge.triple (g.edges ++ [e])).Nodup
      rw [List.map_append]
      exact h.triples_nodup.append (List.nodup_singleton _) (by simpa [triples] using hfresh)
    · rcases List.mem_append.1 he' with hmem | hmem
      · exact h.source_mem e' hmem
      · rw [List.mem_singleton.1 hmem]
        exact hsource
    · rcases List.mem_append.1 he' with hmem | hmem
      · exact h.target_mem e' hmem
      · rw [List.mem_singleton.1 hmem]
        exact htarget
  · exact h

theorem filterEdges (h : g.WellFormed) (keep : Edge → Bool) :
    Graph.WellFormed { g with edges := g.edges.filter keep } where
  ids_nodup := h.ids_nodup
  triples_nodup := h.triples_nodup.sublist (List.filter_sublist.map _)
  source_mem e he := h.source_mem e (List.mem_filter.1 he).1
  target_mem e he := h.target_mem e (List.mem_filter.1 he).1

theorem mem_ids_of_mem_triples (h : g.WellFormed) {source target : Bytes} {type : EdgeType}
    (hmem : (source, target, type) ∈ g.triples) : source ∈ g.ids ∧ target ∈ g.ids := by
  obtain ⟨e, he, rfl, rfl, -⟩ := mem_triples_iff.1 hmem
  exact ⟨h.source_mem e he, h.target_mem e he⟩

theorem apply (h : g.WellFormed) (operation : Operation) : (operation.apply g).WellFormed := by
  cases operation with
  | addNode n => exact h.addNode n
  | removeNode id => exact h.removeNode id
  | addEdge e => exact h.addEdge e
  | removeEdge source target type => exact h.filterEdges _
  | clear => exact .empty

theorem ofOperations (operations : List Operation) : (ofOperations operations).WellFormed := by
  suffices hall : ∀ g : Graph, g.WellFormed →
      (operations.foldl (fun g operation => operation.apply g) g).WellFormed from hall _ .empty
  induction operations with
  | nil => exact fun _ h => h
  | cons operation rest ih => exact fun g h => ih _ (h.apply operation)

end WellFormed

end Graph

end CampaignRules
