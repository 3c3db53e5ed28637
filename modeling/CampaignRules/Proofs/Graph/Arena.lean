import Mathlib.Data.List.Induction
import Mathlib.Data.List.Nodup
import CampaignRules.Graph.Arena
import CampaignRules.Proofs.Graph.Invariant

/-! What an arena knows of its graph. In a consistent arena the index has the positions of all nodes,
and what is noted at a node are the positions of the edges at it, in their order. Additions note the
right position at the right nodes, and finding all positions anew makes any well-formed graph a
consistent arena. So in every arena that operations make the lookups tell what the nodes and edges say,
and the graph is the one that the operations make of a graph. -/

namespace CampaignRules

namespace Arena

/-- The positions of an id in a list of ids, in increasing order. -/
def positionsOf (ends : List Bytes) (id : Bytes) : List Nat :=
  (ends.zipIdx.filter fun e => e.1 = id).map (·.2)

/-- The index leads to each id of the list, and to nothing else. -/
def Indexes (index : List (Bytes × Nat)) (ids : List Bytes) : Prop :=
  ∀ id i, index.lookup id = some i ↔ ids[i]? = some id

/-- The parts of an arena fit together. -/
structure Consistent (a : Arena) : Prop where
  wellFormed : a.toGraph.WellFormed
  index : Indexes a.index a.ids
  leaving : a.leaving = a.ids.map (positionsOf (a.edges.map (·.source)))
  entering : a.entering = a.ids.map (positionsOf (a.edges.map (·.target)))

variable {ids ends : List Bytes} {index : List (Bytes × Nat)} {id : Bytes} {i : Nat}

theorem Indexes.lookup_eq_none (h : Indexes index ids) : index.lookup id = none ↔ id ∉ ids := by
  rw [← Option.not_isSome_iff_eq_none, Option.isSome_iff_exists, List.mem_iff_getElem?, not_iff_not]
  exact exists_congr fun i => h id i

theorem Indexes.cons (h : Indexes index ids) (hnew : id ∉ ids) :
    Indexes ((id, ids.length) :: index) (ids ++ [id]) := by
  intro other i
  rw [List.lookup_cons]
  by_cases heq : other = id
  · subst heq
    simp only [beq_self_eq_true, Option.some.injEq]
    constructor
    · rintro rfl
      exact List.getElem?_concat_length
    · intro hfound
      rcases Nat.lt_trichotomy i ids.length with hlt | rfl | hgt
      · rw [List.getElem?_append_left hlt] at hfound
        exact absurd (List.mem_of_getElem? hfound) hnew
      · rfl
      · rw [List.getElem?_eq_none (by simp; omega)] at hfound
        cases hfound
  · have hne : (other == id) = false := by simpa using heq
    rw [hne]
    refine (h other i).trans ⟨fun hfound => ?_, fun hfound => ?_⟩
    · rw [List.getElem?_append_left (List.getElem?_eq_some_iff.1 hfound).1, hfound]
    · rcases Nat.lt_or_ge i ids.length with hlt | hge
      · rwa [List.getElem?_append_left hlt] at hfound
      · rw [List.getElem?_append_right hge, List.getElem?_singleton] at hfound
        split at hfound
        · exact absurd (Option.some.inj hfound).symm heq
        · cases hfound

theorem indexes_indexOf (hnodup : ids.Nodup) : Indexes (indexOf ids) ids := by
  induction ids using List.reverseRecOn with
  | nil => exact fun id i => by simp [indexOf]
  | append_singleton ids id ih =>
      rw [List.nodup_append] at hnodup
      have hnew : id ∉ ids := fun hmem => hnodup.2.2 id hmem id (List.mem_singleton.2 rfl) rfl
      have hrest := ih hnodup.1
      have hnone : ((indexOf ids).lookup id).isSome = false := by
        rw [hrest.lookup_eq_none.2 hnew]
        rfl
      have hstep : indexOf (ids ++ [id]) = (id, ids.length) :: indexOf ids := by
        rw [indexOf, List.zipIdx_append, List.foldl_append]
        show emplace id (0 + ids.length) (indexOf ids) = _
        rw [emplace, hnone, Nat.zero_add]
        rfl
      rw [hstep]
      exact hrest.cons hnew

theorem positionsOf_of_not_mem (hnew : id ∉ ends) : positionsOf ends id = [] := by
  have hnone : (ends.zipIdx.filter fun e => e.1 = id) = [] := by
    refine List.filter_eq_nil_iff.2 fun e he heq => hnew ?_
    rw [decide_eq_true_eq] at heq
    exact heq ▸ List.fst_mem_of_mem_zipIdx he
  rw [positionsOf, hnone, List.map_nil]

theorem positionsOf_concat (end' : Bytes) : positionsOf (ends ++ [end']) id =
    positionsOf ends id ++ if end' = id then [ends.length] else [] := by
  rw [positionsOf, List.zipIdx_append, List.filter_append, List.map_append]
  by_cases heq : end' = id <;> simp [positionsOf, heq]

/-- An edge is noted where its end is. -/
theorem note_eq (ends : List Bytes) (hnodup : ids.Nodup) (hi : ids[i]? = some id) :
    note i ends.length (ids.map (positionsOf ends)) = some (ids.map (positionsOf (ends ++ [id]))) := by
  have hlt := (List.getElem?_eq_some_iff.1 hi).1
  rw [note, if_pos (by rwa [List.length_map])]
  refine congrArg some (List.ext_getElem? fun j => ?_)
  rw [List.getElem?_modify, List.getElem?_map, List.getElem?_map]
  cases hj : ids[j]? with
  | none => rfl
  | some other =>
      have hsame : i = j ↔ id = other := by
        constructor
        · rintro rfl
          exact Option.some.inj (hi.symm.trans hj)
        · rintro rfl
          exact (List.getElem?_inj hlt hnodup).1 (hi.trans hj.symm)
      simp only [Option.map_some, positionsOf_concat, hsame]
      split <;> simp

theorem incidence_eq (hnodup : ids.Nodup) (hindex : Indexes index ids)
    (hends : ∀ end' ∈ ends, end' ∈ ids) :
    incidence index ids.length ends = some (ids.map (positionsOf ends)) := by
  induction ends using List.reverseRecOn with
  | nil =>
      have hblank : ids.map (positionsOf []) = List.replicate ids.length [] := List.map_const'
      rw [hblank]
      rfl
  | append_singleton ends id ih =>
      rw [List.forall_mem_append, List.forall_mem_singleton] at hends
      obtain ⟨i, hi⟩ := List.mem_iff_getElem?.1 hends.2
      have hrest : List.foldlM _ _ ends.zipIdx = some _ := ih hends.1
      rw [incidence, List.zipIdx_append, List.foldlM_append, hrest]
      simp only [List.zipIdx_singleton, List.foldlM_cons, List.foldlM_nil, Option.bind_eq_bind,
        Option.bind_some, (hindex id i).2 hi, Nat.zero_add, note_eq ends hnodup hi, Option.pure_def]

theorem mapM_map_eq_some {α β γ : Type} {h : α → β} {f : β → Option γ} {g : α → γ} {xs : List α}
    (hall : ∀ x ∈ xs, f (h x) = some (g x)) : (xs.map h).mapM f = some (xs.map g) := by
  induction xs with
  | nil => rfl
  | cons x rest ih =>
      rw [List.forall_mem_cons] at hall
      rw [List.map_cons, List.mapM_cons, hall.1, ih hall.2]
      rfl

/-- What is found at the positions of an id are the edges with this end. -/
theorem mapM_positionsOf (edges : List Edge) (end' : Edge → Bytes) :
    (positionsOf (edges.map end') id).mapM (fun e => edges[e]?) =
      some (edges.filter fun e => end' e = id) := by
  have hpositions : positionsOf (edges.map end') id =
      (edges.zipIdx.filter fun e => end' e.1 = id).map (·.2) := by
    rw [positionsOf, List.zipIdx_map, List.filter_map, List.map_map]
    rfl
  have hedges : (edges.zipIdx.filter fun e => end' e.1 = id).map (·.1) =
      edges.filter fun e => end' e = id := by
    conv_rhs => rw [← List.zipIdx_map_fst 0 edges, List.filter_map]
    rfl
  rw [hpositions, ← hedges]
  exact mapM_map_eq_some fun e he => List.mem_zipIdx_iff_getElem?.1 (List.mem_filter.1 he).1

variable {a : Arena}

namespace Consistent

theorem position?_eq_none (h : a.Consistent) : a.position? id = none ↔ id ∉ a.ids :=
  h.index.lookup_eq_none

theorem edgesAt_eq (h : a.Consistent) {lists : List (List Nat)} {end' : Edge → Bytes}
    (hlists : lists = a.ids.map (positionsOf (a.edges.map end')))
    (hends : ∀ e ∈ a.edges, end' e ∈ a.ids) (id : Bytes) :
    a.edgesAt lists id = some (a.edges.filter fun e => end' e = id) := by
  rw [edgesAt]
  cases hi : a.position? id with
  | none =>
      have hnone : (a.edges.filter fun e => end' e = id) = [] := by
        refine List.filter_eq_nil_iff.2 fun e he heq => ?_
        rw [decide_eq_true_eq] at heq
        exact h.position?_eq_none.1 hi (heq ▸ hends e he)
      rw [hnone]
  | some i =>
      have hlist : lists[i]? = some (positionsOf (a.edges.map end') id) := by
        rw [hlists, List.getElem?_map, (h.index id i).1 hi, Option.map_some]
      simp only [hlist, Option.bind_eq_bind, Option.bind_some]
      exact mapM_positionsOf a.edges end'

theorem outgoing_eq (h : a.Consistent) (id : Bytes) : a.outgoing id = some (a.toGraph.outgoing id) :=
  h.edgesAt_eq h.leaving h.wellFormed.source_mem id

theorem incoming_eq (h : a.Consistent) (id : Bytes) : a.incoming id = some (a.toGraph.incoming id) :=
  h.edgesAt_eq h.entering h.wellFormed.target_mem id

theorem dependencies_eq (h : a.Consistent) (id : Bytes) :
    a.dependencies id = some (a.toGraph.dependencies id) := by
  rw [dependencies, h.outgoing_eq]
  rfl

theorem dependents_eq (h : a.Consistent) (id : Bytes) :
    a.dependents id = some (a.toGraph.dependents id) := by
  rw [dependents, h.incoming_eq]
  rfl

theorem hasNode_eq (h : a.Consistent) (id : Bytes) : a.hasNode id = a.toGraph.hasNode id := by
  rw [Bool.eq_iff_iff, Graph.hasNode_iff, Arena.hasNode, Option.isSome_iff_exists,
    List.mem_iff_getElem?]
  exact exists_congr fun i => h.index id i

theorem hasEdge_eq (h : a.Consistent) (source target : Bytes) (type : Option EdgeType) :
    a.hasEdge source target type = some (a.toGraph.hasEdge source target type) := by
  rw [hasEdge, h.outgoing_eq]
  refine congrArg some ?_
  rw [Graph.outgoing, Graph.hasEdge, List.any_filter]
  exact congrArg a.edges.any (funext fun e => (Bool.and_assoc _ _ _).symm)

end Consistent

/-- There is a result, and it is a consistent arena of the graph. -/
def Makes (result : Option Arena) (g : Graph) : Prop :=
  ∃ a, result = some a ∧ a.Consistent ∧ a.toGraph = g

theorem makes_ofGraph {g : Graph} (hg : g.WellFormed) : Makes (ofGraph g) g := by
  have hindex := indexes_indexOf hg.ids_nodup
  have hlength : g.nodes.length = g.ids.length := (List.length_map _).symm
  have hleaving := incidence_eq hg.ids_nodup hindex (List.forall_mem_map.2 hg.source_mem)
  have hentering := incidence_eq hg.ids_nodup hindex (List.forall_mem_map.2 hg.target_mem)
  let made : Arena :=
    { g with
      index := indexOf g.ids
      leaving := g.ids.map (positionsOf (g.edges.map (·.source)))
      entering := g.ids.map (positionsOf (g.edges.map (·.target))) }
  refine ⟨made, ?_, ⟨hg, hindex, rfl, rfl⟩, rfl⟩
  rw [ofGraph, hlength]
  simp only [hleaving, hentering, Option.bind_eq_bind, Option.bind_some, Option.pure_def]
  rfl

/-- Without the node at its position there are the nodes with other ids. -/
theorem eraseIdx_eq_filter {nodes : List Node} (hnodup : (nodes.map (·.id)).Nodup)
    (hi : (nodes.map (·.id))[i]? = some id) : nodes.eraseIdx i = nodes.filter fun n => n.id ≠ id := by
  induction nodes generalizing i with
  | nil => cases hi
  | cons n rest ih =>
      rw [List.map_cons, List.nodup_cons] at hnodup
      cases i with
      | zero =>
          rw [List.map_cons, List.getElem?_cons_zero, Option.some.injEq] at hi
          have hall : ∀ m ∈ rest, decide (m.id ≠ id) = true := fun m hm =>
            decide_eq_true fun heq => hnodup.1 (hi.trans heq.symm ▸ List.mem_map_of_mem hm)
          rw [List.eraseIdx_cons_zero, List.filter_cons_of_neg (by simpa using hi),
            List.filter_eq_self.2 hall]
      | succ i =>
          rw [List.map_cons, List.getElem?_cons_succ] at hi
          have hne : n.id ≠ id := fun heq => hnodup.1 (heq ▸ List.mem_of_getElem? hi)
          rw [List.eraseIdx_cons_succ, List.filter_cons_of_pos (by simpa using hne), ih hnodup.2 hi]

namespace Consistent

theorem empty : Arena.empty.Consistent :=
  ⟨.empty, fun id i => by simp [Arena.empty, Graph.empty, Graph.ids], rfl, rfl⟩

theorem addNode (h : a.Consistent) (n : Node) : Makes (some (a.addNode n).2) (a.toGraph.addNode n) := by
  have hwellFormed := h.wellFormed.addNode n
  rw [Graph.addNode_eq] at hwellFormed ⊢
  rw [Arena.addNode, h.hasNode_eq]
  split
  · exact ⟨a, rfl, h, rfl⟩
  · rename_i hnew
    rw [if_neg hnew] at hwellFormed
    rw [Graph.hasNode_iff] at hnew
    have hids : Graph.ids ⟨a.nodes ++ [n], a.edges⟩ = a.ids ++ [n.id] := List.map_append
    have hlength : a.nodes.length = a.ids.length := (List.length_map _).symm
    have hnone : ∀ end' : Edge → Bytes, (∀ e ∈ a.edges, end' e ∈ a.ids) →
        positionsOf (a.edges.map end') n.id = [] := by
      intro end' hends
      refine positionsOf_of_not_mem fun hmem => ?_
      obtain ⟨e, he, heq⟩ := List.mem_map.1 hmem
      exact hnew (heq ▸ hends e he)
    refine ⟨_, rfl, ⟨hwellFormed, ?_, ?_, ?_⟩, rfl⟩ <;> dsimp only <;> rw [hids]
    · rw [hlength]
      exact h.index.cons hnew
    · rw [List.map_append, h.leaving, List.map_singleton, hnone _ h.wellFormed.source_mem]
    · rw [List.map_append, h.entering, List.map_singleton, hnone _ h.wellFormed.target_mem]

theorem addEdge (h : a.Consistent) (e : Edge) :
    Makes ((a.addEdge e).map (·.2)) (a.toGraph.addEdge e) := by
  have hwellFormed := h.wellFormed.addEdge e
  rw [Graph.addEdge_eq] at hwellFormed ⊢
  rw [← h.hasNode_eq, ← h.hasNode_eq, Arena.hasNode, Arena.hasNode] at hwellFormed ⊢
  rw [Arena.addEdge]
  cases hsource : a.position? e.source with
  | none => exact ⟨a, rfl, h, rfl⟩
  | some source =>
      cases htarget : a.position? e.target with
      | none => exact ⟨a, rfl, h, rfl⟩
      | some target =>
          rw [hsource, htarget] at hwellFormed
          simp only [h.hasEdge_eq, Option.bind_eq_bind, Option.bind_some, Option.isSome_some,
            Bool.true_and] at hwellFormed ⊢
          cases hold : a.toGraph.hasEdge e.source e.target (some e.type) with
          | true => exact ⟨a, rfl, h, rfl⟩
          | false =>
              rw [hold] at hwellFormed
              have hleaving := note_eq (a.edges.map (·.source)) h.wellFormed.ids_nodup
                ((h.index _ _).1 hsource)
              have hentering := note_eq (a.edges.map (·.target)) h.wellFormed.ids_nodup
                ((h.index _ _).1 htarget)
              rw [List.length_map] at hleaving hentering
              simp only [Bool.not_false, if_true] at hwellFormed
              simp only [h.leaving, h.entering, hleaving, hentering, Bool.false_eq_true, if_false,
                Option.bind_some, Option.pure_def, Option.map_some, Bool.not_false, if_true]
              exact ⟨_, rfl, ⟨hwellFormed, h.index, by rw [List.map_append]; rfl,
                by rw [List.map_append]; rfl⟩, rfl⟩

theorem removeNode (h : a.Consistent) (id : Bytes) :
    Makes ((a.removeNode id).map (·.2)) (a.toGraph.removeNode id) := by
  rw [Arena.removeNode]
  cases hi : a.position? id with
  | none =>
      rw [h.wellFormed.removeNode_eq_self (h.position?_eq_none.1 hi)]
      exact ⟨a, rfl, h, rfl⟩
  | some i =>
      obtain ⟨left, hleft, hmade⟩ := makes_ofGraph (h.wellFormed.removeNode id)
      rw [Graph.removeNode, ← eraseIdx_eq_filter h.wellFormed.ids_nodup ((h.index id i).1 hi)] at hleft
      refine ⟨left, ?_, hmade⟩
      simp only [hleft, Option.bind_eq_bind, Option.bind_some, Option.pure_def, Option.map_some]

theorem removeEdge (h : a.Consistent) (source target : Bytes) (type : Option EdgeType) :
    Makes ((a.removeEdge source target type).map (·.2)) (a.toGraph.removeEdge source target type) := by
  rw [Arena.removeEdge, Graph.removeEdge]
  split
  · rename_i hnone
    have hkept : (a.edges.filter fun e => !Graph.matchesEnds source target type e) = a.edges :=
      List.filter_sublist.eq_of_length_le (Nat.sub_eq_zero_iff_le.1 hnone)
    rw [hkept]
    exact ⟨a, rfl, h, rfl⟩
  · obtain ⟨left, hleft, hmade⟩ :=
      makes_ofGraph (h.wellFormed.filterEdges fun e => !Graph.matchesEnds source target type e)
    refine ⟨left, ?_, hmade⟩
    simp only [hleft, Option.bind_eq_bind, Option.bind_some, Option.pure_def, Option.map_some]

end Consistent

/-! ### Operations -/

/-- The arena after an operation. -/
def apply (a : Arena) : Graph.Operation → Option Arena
  | .addNode n => some (a.addNode n).2
  | .removeNode id => (a.removeNode id).map (·.2)
  | .addEdge e => (a.addEdge e).map (·.2)
  | .removeEdge source target type => (a.removeEdge source target type).map (·.2)
  | .clear => some .empty

/-- The arena that a sequence of operations makes of the empty arena. -/
def ofOperations (operations : List Graph.Operation) : Option Arena :=
  operations.foldlM apply .empty

theorem Consistent.apply (h : a.Consistent) (operation : Graph.Operation) :
    Makes (a.apply operation) (operation.apply a.toGraph) := by
  cases operation with
  | addNode n => exact h.addNode n
  | removeNode id => exact h.removeNode id
  | addEdge e => exact h.addEdge e
  | removeEdge source target type => exact h.removeEdge source target type
  | clear => exact ⟨.empty, rfl, .empty, rfl⟩

theorem makes_ofOperations (operations : List Graph.Operation) :
    Makes (ofOperations operations) (Graph.ofOperations operations) := by
  suffices hall : ∀ a : Arena, a.Consistent → Makes (operations.foldlM Arena.apply a)
      (operations.foldl (fun g operation => operation.apply g) a.toGraph) from hall _ .empty
  induction operations with
  | nil => exact fun a h => ⟨a, rfl, h, rfl⟩
  | cons operation rest ih =>
      intro a h
      obtain ⟨next, hnext, hconsistent, hgraph⟩ := h.apply operation
      rw [List.foldlM_cons, List.foldl_cons, hnext, ← hgraph]
      exact ih next hconsistent

/-- Every sequence of operations makes an arena, which has the nodes and edges of the graph that the
operations make. One node has an id, and the index leads there; one edge has its ends and its type, and
the ends are nodes; and what the arena tells of the edges at a node is what its list of edges tells. -/
theorem lookups_exact_of_operations (operations : List Graph.Operation) :
    ∃ a, ofOperations operations = some a ∧ a.toGraph = Graph.ofOperations operations ∧
      a.ids.Nodup ∧ (∀ id i, a.position? id = some i ↔ (a.nodes[i]?).map (·.id) = some id) ∧
      (∀ e ∈ a.edges, e.source ∈ a.ids ∧ e.target ∈ a.ids) ∧ a.triples.Nodup ∧
      ∀ id, a.outgoing id = some (a.edges.filter fun e => e.source = id) ∧
        a.dependencies id = some ((a.edges.filter fun e => e.source = id).map (·.target)).eraseDups ∧
        a.dependents id = some ((a.edges.filter fun e => e.target = id).map (·.source)).eraseDups ∧
        ∀ target type, ∃ found, a.hasEdge id target type = some found ∧ (found = true ↔
          ∃ e ∈ a.edges, e.source = id ∧ e.target = target ∧ ∀ t ∈ type, t = e.type) := by
  obtain ⟨a, hmade, h, hgraph⟩ := makes_ofOperations operations
  refine ⟨a, hmade, hgraph, h.wellFormed.ids_nodup, fun id i => ?_,
    fun e he => ⟨h.wellFormed.source_mem e he, h.wellFormed.target_mem e he⟩,
    h.wellFormed.triples_nodup,
    fun id => ⟨h.outgoing_eq id, h.dependencies_eq id, h.dependents_eq id, fun target type => ?_⟩⟩
  · rw [← List.getElem?_map]
    exact h.index id i
  · exact ⟨_, h.hasEdge_eq id target type, Graph.hasEdge_iff⟩

end Arena

end CampaignRules
