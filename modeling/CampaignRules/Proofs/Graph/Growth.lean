import CampaignRules.Graph.Build
import CampaignRules.Proofs.Graph.Invariant

/-! What adding records to a graph can do. The graph grows: nodes and edges that are there stay, and
what comes to it are nodes and edges of the kinds that the records call for. An edge that is added
between two nodes is there afterwards, be it as the edge given or as one with the same triple. -/

namespace CampaignRules.Graph

/-- The word before the colon of an id, which names the kind of its node. -/
def idKind (id : Bytes) : Bytes :=
  (Bytes.cutAt ':'.toUInt8 id).1

@[simp] theorem idKind_variableId (name : Bytes) : idKind (variableId name) = "VARIABLE" := rfl

@[simp] theorem idKind_conditionId (id : Bytes) : idKind (conditionId id) = "CONDITION" := rfl

@[simp] theorem idKind_effectId (id : Bytes) : idKind (effectId id) = "EFFECT" := rfl

@[simp] theorem idKind_entityId (ref : EntityRef) : idKind (entityId ref) = "ENTITY" := rfl

theorem ne_of_idKind_ne {a b : Bytes} (hkind : idKind a ≠ idKind b) : a ≠ b :=
  fun heq => hkind (congrArg idKind heq)

theorem conditionId_ne_variableId (id name : Bytes) : conditionId id ≠ variableId name :=
  ne_of_idKind_ne (by simp only [idKind_conditionId, idKind_variableId]; decide)

theorem conditionId_ne_effectId (id effect : Bytes) : conditionId id ≠ effectId effect :=
  ne_of_idKind_ne (by simp only [idKind_conditionId, idKind_effectId]; decide)

theorem conditionId_ne_entityId (id : Bytes) (ref : EntityRef) : conditionId id ≠ entityId ref :=
  ne_of_idKind_ne (by simp only [idKind_conditionId, idKind_entityId]; decide)

theorem effectId_ne_variableId (id name : Bytes) : effectId id ≠ variableId name :=
  ne_of_idKind_ne (by simp only [idKind_effectId, idKind_variableId]; decide)

theorem effectId_ne_entityId (id : Bytes) (ref : EntityRef) : effectId id ≠ entityId ref :=
  ne_of_idKind_ne (by simp only [idKind_effectId, idKind_entityId]; decide)

theorem entityId_ne_variableId (ref : EntityRef) (name : Bytes) : entityId ref ≠ variableId name :=
  ne_of_idKind_ne (by simp only [idKind_entityId, idKind_variableId]; decide)

theorem variableId_inj {a b : Bytes} : variableId a = variableId b ↔ a = b :=
  List.append_right_inj _

theorem conditionId_inj {a b : Bytes} : conditionId a = conditionId b ↔ a = b :=
  List.append_right_inj _

theorem effectId_inj {a b : Bytes} : effectId a = effectId b ↔ a = b :=
  List.append_right_inj _

/-- The second graph has all of the first, and besides only nodes and edges of the given kinds. -/
structure Grows (node : Node → Prop) (edge : Edge → Prop) (g g' : Graph) : Prop where
  wellFormed : g.WellFormed → g'.WellFormed
  nodes : ∀ n ∈ g.nodes, n ∈ g'.nodes
  edges : ∀ e ∈ g.edges, e ∈ g'.edges
  new_node : ∀ n ∈ g'.nodes, n ∈ g.nodes ∨ node n
  new_edge : ∀ e ∈ g'.edges, e ∈ g.edges ∨ edge e

variable {node : Node → Prop} {edge : Edge → Prop} {g g' g'' : Graph} {n : Node} {e : Edge}

namespace Grows

theorem refl (g : Graph) : Grows node edge g g :=
  ⟨id, fun _ h => h, fun _ h => h, fun _ h => .inl h, fun _ h => .inl h⟩

theorem trans (h : Grows node edge g g') (h' : Grows node edge g' g'') : Grows node edge g g'' where
  wellFormed hg := h'.wellFormed (h.wellFormed hg)
  nodes n hn := h'.nodes n (h.nodes n hn)
  edges e he := h'.edges e (h.edges e he)
  new_node n hn := (h'.new_node n hn).elim (h.new_node n) .inr
  new_edge e he := (h'.new_edge e he).elim (h.new_edge e) .inr

theorem mono {node' : Node → Prop} {edge' : Edge → Prop} (h : Grows node edge g g')
    (hnode : ∀ n, node n → node' n) (hedge : ∀ e, edge e → edge' e) : Grows node' edge' g g' where
  wellFormed := h.wellFormed
  nodes := h.nodes
  edges := h.edges
  new_node n hn := (h.new_node n hn).imp_right (hnode n)
  new_edge e he := (h.new_edge e he).imp_right (hedge e)

theorem ids (h : Grows node edge g g') {id : Bytes} (hid : id ∈ g.ids) : id ∈ g'.ids := by
  obtain ⟨n, hn, rfl⟩ := List.mem_map.1 hid
  exact List.mem_map_of_mem (h.nodes n hn)

theorem triples (h : Grows node edge g g') {t : Bytes × Bytes × EdgeType} (ht : t ∈ g.triples) :
    t ∈ g'.triples := by
  obtain ⟨e, he, rfl⟩ := List.mem_map.1 ht
  exact List.mem_map_of_mem (h.edges e he)

theorem addNode (hnode : node n) : Grows node edge g (g.addNode n) := by
  rw [addNode_eq]
  split
  · exact .refl g
  · rename_i hnew
    refine ⟨fun hg => ?_, fun n hn => List.mem_append_left _ hn, fun _ h => h, fun n' hn => ?_,
      fun _ h => .inl h⟩
    · have hadded := hg.addNode n
      rwa [addNode_eq, if_neg hnew] at hadded
    · rcases List.mem_append.1 hn with hn | hn
      · exact .inl hn
      · rw [List.mem_singleton.1 hn]
        exact .inr hnode

theorem addEdge (hedge : edge e) : Grows node edge g (g.addEdge e) := by
  rw [addEdge_eq]
  split
  · rename_i hnew
    refine ⟨fun hg => ?_, fun _ h => h, fun e he => List.mem_append_left _ he, fun _ h => .inl h,
      fun e' he => ?_⟩
    · have hadded := hg.addEdge e
      rwa [addEdge_eq, if_pos hnew] at hadded
    · rcases List.mem_append.1 he with he | he
      · exact .inl he
      · rw [List.mem_singleton.1 he]
        exact .inr hedge
  · exact .refl g

theorem foldl {α : Type} {step : Graph → α → Graph} {xs : List α}
    (hstep : ∀ x ∈ xs, ∀ g, Grows node edge g (step g x)) : Grows node edge g (xs.foldl step g) := by
  induction xs generalizing g with
  | nil => exact .refl g
  | cons x rest ih =>
      rw [List.forall_mem_cons] at hstep
      exact (hstep.1 g).trans (ih hstep.2)

end Grows

theorem addNode?_of_mem (hid : n.id ∈ g.ids) : g.addNode? n = none :=
  if_pos (hasNode_iff.2 hid)

theorem addNode?_of_not_mem (hid : n.id ∉ g.ids) : g.addNode? n = some (g.addNode n) := by
  have hfree : g.addNode? n = some { g with nodes := g.nodes ++ [n] } :=
    if_neg fun htaken => hid (hasNode_iff.1 htaken)
  rw [addNode, hfree, Option.getD_some]

theorem mem_ids_addNode : n.id ∈ (g.addNode n).ids := by
  rw [addNode_eq]
  split
  · exact hasNode_iff.1 ‹_›
  · simp [ids]

theorem mem_triples_addEdge (hsource : e.source ∈ g.ids) (htarget : e.target ∈ g.ids) :
    e.triple ∈ (g.addEdge e).triples := by
  rw [addEdge_eq]
  split
  · simp [triples]
  · rename_i hold
    rw [hasNode_iff.2 hsource, hasNode_iff.2 htarget, Bool.true_and, Bool.true_and,
      Bool.not_eq_true', Bool.not_eq_false] at hold
    exact mem_triples.2 hold

theorem grows_addEdges {links : List Edge} (hlinks : ∀ e ∈ links, edge e) :
    Grows (fun _ => False) edge g (g.addEdges links) :=
  .foldl fun e he _ => .addEdge (hlinks e he)

theorem mem_triples_addEdges {links : List Edge}
    (hends : ∀ e ∈ links, e.source ∈ g.ids ∧ e.target ∈ g.ids) :
    ∀ e ∈ links, e.triple ∈ (g.addEdges links).triples := by
  induction links generalizing g with
  | nil => exact fun _ h => absurd h List.not_mem_nil
  | cons first rest ih =>
      rw [List.forall_mem_cons] at hends ⊢
      have hfirst : Grows (fun _ => True) (fun _ => True) g (g.addEdge first) := .addEdge trivial
      have hrest : Grows (fun _ => False) (fun _ => True) (g.addEdge first)
          ((g.addEdge first).addEdges rest) := grows_addEdges fun _ _ => trivial
      refine ⟨hrest.triples (mem_triples_addEdge hends.1.1 hends.1.2), ih fun e he => ?_⟩
      exact ⟨hfirst.ids (hends.2 e he).1, hfirst.ids (hends.2 e he).2⟩

section

variable {edge : Bytes → Edge} {names : List Bytes} {source : Bytes}

theorem grows_addVariableEdges :
    Grows (fun n => ∃ name ∈ names, n = variableNode name) (fun e => ∃ name ∈ names, e = edge name)
      g (addVariableEdges edge names g) :=
  .foldl fun name hname _ => (Grows.addNode ⟨name, hname, rfl⟩).trans (.addEdge ⟨name, hname, rfl⟩)

theorem mem_triples_addVariableEdges (hsource : source ∈ g.ids)
    (hedge : ∀ name, (edge name).source = source ∧ (edge name).target = variableId name) :
    ∀ name ∈ names, (edge name).triple ∈ (addVariableEdges edge names g).triples := by
  induction names generalizing g with
  | nil => exact fun _ h => absurd h List.not_mem_nil
  | cons first rest ih =>
      have hnode : Grows (fun _ => True) (fun _ => True) g (g.addNode (variableNode first)) :=
        .addNode trivial
      have hstep : Grows (fun _ => True) (fun _ => True) g
          ((g.addNode (variableNode first)).addEdge (edge first)) :=
        hnode.trans (.addEdge trivial)
      have hrest : Grows (fun n => ∃ name ∈ rest, n = variableNode name)
          (fun e => ∃ name ∈ rest, e = edge name) _
          (addVariableEdges edge rest ((g.addNode (variableNode first)).addEdge (edge first))) :=
        grows_addVariableEdges
      refine List.forall_mem_cons.2 ⟨hrest.triples (mem_triples_addEdge ?_ ?_),
        ih (hstep.ids hsource)⟩
      · rw [(hedge first).1]
        exact hnode.ids hsource
      · rw [(hedge first).2]
        exact mem_ids_addNode

theorem grows_addOwner {labels : Labels} {owner : EntityRef} {id : Bytes} :
    Grows (fun n => n = entityNode labels owner) (fun e => e = ownsEdge owner id)
      g (addOwner labels owner id g) := by
  have hnode : Grows (fun n => n = entityNode labels owner) (fun e => e = ownsEdge owner id)
      g (g.addNode (entityNode labels owner)) := .addNode rfl
  exact hnode.trans (.addEdge rfl)

theorem mem_triples_addOwner {labels : Labels} {owner : EntityRef} {id : Bytes} (hid : id ∈ g.ids) :
    (ownsEdge owner id).triple ∈ (addOwner labels owner id g).triples := by
  have hnode : Grows (fun _ => True) (fun _ => True) g (g.addNode (entityNode labels owner)) :=
    .addNode trivial
  exact mem_triples_addEdge mem_ids_addNode (hnode.ids hid)

end

/-- A variable or an entity is a node only if something reads, writes or depends on it. -/
def Attached (g : Graph) : Prop :=
  ∀ n ∈ g.nodes, n.type = .variable ∨ n.type = .entity →
    ∃ e ∈ g.edges, e.source = n.id ∨ e.target = n.id

namespace Attached

theorem addNode (h : Attached g) (hvariable : n.type ≠ .variable) (hentity : n.type ≠ .entity) :
    Attached (g.addNode n) := by
  rw [addNode_eq]
  split
  · exact h
  · intro n' hn htype
    rcases List.mem_append.1 hn with hn | hn
    · exact h n' hn htype
    · rw [List.mem_singleton.1 hn] at htype
      exact absurd htype (not_or.2 ⟨hvariable, hentity⟩)

/-- A node may come together with an edge at it. -/
theorem attach (h : Attached g) (hat : e.source = n.id ∨ e.target = n.id)
    (hsource : e.source ∈ (g.addNode n).ids) (htarget : e.target ∈ (g.addNode n).ids) :
    Attached ((g.addNode n).addEdge e) := by
  intro n' hn htype
  have hnode : Grows (· = n) (fun _ => True) g (g.addNode n) := .addNode rfl
  have hedge : Grows (fun _ => False) (fun _ => True) (g.addNode n) ((g.addNode n).addEdge e) :=
    .addEdge trivial
  rcases (hedge.new_node n' hn).elim (hnode.new_node n') False.elim with hn | rfl
  · obtain ⟨old, hold, hat⟩ := h n' hn htype
    exact ⟨old, hedge.edges old (hnode.edges old hold), hat⟩
  · obtain ⟨e', he', hsource', htarget', -⟩ := mem_triples_iff.1 (mem_triples_addEdge hsource htarget)
    exact ⟨e', he', by rwa [hsource', htarget']⟩

theorem addVariableEdges {edge : Bytes → Edge} {names : List Bytes} {source : Bytes}
    (h : Attached g ∧ source ∈ g.ids)
    (hedge : ∀ name, (edge name).source = source ∧ (edge name).target = variableId name) :
    Attached (addVariableEdges edge names g) ∧ source ∈ (Graph.addVariableEdges edge names g).ids := by
  refine ⟨?_, grows_addVariableEdges.ids h.2⟩
  induction names generalizing g with
  | nil => exact h.1
  | cons first rest ih =>
      have hnode : Grows (fun _ => True) (fun _ => True) g (g.addNode (variableNode first)) :=
        .addNode trivial
      refine ih ⟨h.1.attach (.inr (hedge first).2) ?_ ?_, (hnode.trans (.addEdge trivial)).ids h.2⟩
      · rw [(hedge first).1]
        exact hnode.ids h.2
      · rw [(hedge first).2]
        exact mem_ids_addNode

theorem addOwner {labels : Labels} {owner : EntityRef} {id : Bytes}
    (h : Attached g ∧ id ∈ g.ids) : Attached (addOwner labels owner id g) := by
  have hnode : Grows (fun _ => True) (fun _ => True) g (g.addNode (entityNode labels owner)) :=
    .addNode trivial
  exact h.1.attach (.inl rfl) mem_ids_addNode (hnode.ids h.2)

end Attached

end CampaignRules.Graph
