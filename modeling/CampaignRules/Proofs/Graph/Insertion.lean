import CampaignRules.Proofs.Graph.Order
import CampaignRules.Proofs.Graph.Reach

/-! Graphs that stay free of cycles. A walk that uses a new edge goes from its start to the source of the
edge and from the target of the edge to its end, and both parts can be chosen among the old edges. So an
edge closes a cycle exactly if its source could be reached from its target before, which is what the guard
of insertions asks; no other operation adds an edge. -/

namespace CampaignRules.Graph

/-- No walk along at least one edge leads from a node back to itself. -/
def IsAcyclic (g : Graph) : Prop :=
  ∀ c, ¬Relation.TransGen g.Adj c c

variable {g h : Graph} {e : Edge} {x y : Bytes}

theorem isComplete_iff (hg : g.WellFormed) : g.topologicalOrder.isComplete = true ↔ g.IsAcyclic := by
  rw [← Bool.not_eq_false, isComplete_eq_false_iff hg, not_exists]
  rfl

theorem wouldCreateCycle_iff (hg : g.WellFormed) (hx : x ∈ g.ids) (hy : y ∈ g.ids) :
    g.wouldCreateCycle x y = true ↔ g.Reaches y x := by
  rw [wouldCreateCycle, hasPath_iff hg, and_iff_right ⟨hy, hx⟩]

/-- With fewer edges there are no more cycles. -/
theorem IsAcyclic.of_edges_subset (hacyclic : g.IsAcyclic) (hsub : h.edges ⊆ g.edges) :
    h.IsAcyclic := by
  intro c hcycle
  refine hacyclic c (Relation.TransGen.mono ?_ _ _ hcycle)
  rintro a b ⟨e, he, hends⟩
  exact ⟨e, hsub he, hends⟩

theorem adj_addEdge (hadj : (g.addEdge e).Adj x y) : g.Adj x y ∨ x = e.source ∧ y = e.target := by
  obtain ⟨e', he', rfl, rfl⟩ := hadj
  rw [addEdge_eq] at he'
  split at he'
  · rcases List.mem_append.1 he' with hmem | hmem
    · exact .inl ⟨e', hmem, rfl, rfl⟩
    · rw [List.mem_singleton.1 hmem]
      exact .inr ⟨rfl, rfl⟩
  · exact .inl ⟨e', he', rfl, rfl⟩

theorem edges_subset_addEdge : g.edges ⊆ (g.addEdge e).edges := by
  rw [addEdge_eq]
  split
  · exact List.subset_append_left _ _
  · exact List.Subset.refl _

/-- An edge between two nodes is there afterwards, whether it is new or not. -/
theorem adj_addEdge_self (hsource : e.source ∈ g.ids) (htarget : e.target ∈ g.ids) :
    (g.addEdge e).Adj e.source e.target := by
  rw [addEdge_eq]
  split
  · exact ⟨e, List.mem_append_right _ List.mem_cons_self, rfl, rfl⟩
  · rename_i hold
    rw [hasNode_iff.2 hsource, hasNode_iff.2 htarget, Bool.true_and, Bool.true_and,
      Bool.not_eq_true', Bool.not_eq_false, hasEdge_iff] at hold
    obtain ⟨e', he', hends, hends', -⟩ := hold
    exact ⟨e', he', hends, hends'⟩

/-- A walk after the insertion is one from before, or it can be led over the new edge once. -/
theorem transGen_addEdge (hwalk : Relation.TransGen (g.addEdge e).Adj x y) :
    Relation.TransGen g.Adj x y ∨ g.Reaches x e.source ∧ g.Reaches e.target y := by
  induction hwalk with
  | single hadj =>
      rcases adj_addEdge hadj with hold | ⟨rfl, rfl⟩
      · exact .inl (.single hold)
      · exact .inr ⟨.refl, .refl⟩
  | tail _ hadj ih =>
      rcases adj_addEdge hadj with hold | ⟨rfl, rfl⟩
      · rcases ih with hbefore | ⟨hto, hfrom⟩
        · exact .inl (hbefore.tail hold)
        · exact .inr ⟨hto, hfrom.tail hold⟩
      · rcases ih with hbefore | ⟨hto, -⟩
        · exact .inr ⟨hbefore.to_reflTransGen, .refl⟩
        · exact .inr ⟨hto, .refl⟩

/-- A graph without cycles has none after the insertion if nothing leads from the target of the edge to
its source. -/
theorem IsAcyclic.addEdge (hacyclic : g.IsAcyclic) (hfree : ¬g.Reaches e.target e.source) :
    (g.addEdge e).IsAcyclic := by
  intro c hcycle
  rcases transGen_addEdge hcycle with hold | ⟨hto, hfrom⟩
  · exact hacyclic c hold
  · exact hfree (hfrom.trans hto)

theorem not_isAcyclic_addEdge (hsource : e.source ∈ g.ids) (htarget : e.target ∈ g.ids)
    (hreach : g.Reaches e.target e.source) : ¬(g.addEdge e).IsAcyclic := by
  intro hacyclic
  have hback : (g.addEdge e).Reaches e.target e.source :=
    Relation.ReflTransGen.mono (fun a b ⟨e', he', hends⟩ => ⟨e', edges_subset_addEdge he', hends⟩)
      _ _ hreach
  exact hacyclic _ (.head' (adj_addEdge_self hsource htarget) hback)

/-- An edge is inserted only if it would not close a cycle. -/
def Operation.isGuarded (g : Graph) : Operation → Bool
  | .addEdge e => !g.wouldCreateCycle e.source e.target
  | _ => true

/-- Each operation is guarded in the graph that those before it made. -/
def areGuarded : Graph → List Operation → Bool
  | _, [] => true
  | g, operation :: rest => operation.isGuarded g && areGuarded (operation.apply g) rest

theorem IsAcyclic.apply (hacyclic : g.IsAcyclic) (hg : g.WellFormed) {operation : Operation}
    (hguarded : operation.isGuarded g) : (operation.apply g).IsAcyclic := by
  cases operation with
  | addNode n =>
      refine hacyclic.of_edges_subset ?_
      rw [Operation.apply, addNode_eq]
      split <;> exact List.Subset.refl _
  | removeNode id => exact hacyclic.of_edges_subset List.filter_sublist.subset
  | addEdge e =>
      by_cases hends : e.source ∈ g.ids ∧ e.target ∈ g.ids
      · rw [Operation.isGuarded, Bool.not_eq_true', ← Bool.not_eq_true,
          wouldCreateCycle_iff hg hends.1 hends.2] at hguarded
        exact hacyclic.addEdge hguarded
      · have hsame : g.addEdge e = g := by
          rw [addEdge_eq, if_neg]
          simp only [Bool.and_eq_true, hasNode_iff]
          exact fun h => hends h.1
        rw [Operation.apply, hsame]
        exact hacyclic
  | removeEdge source target type => exact hacyclic.of_edges_subset List.filter_sublist.subset
  | clear => exact hacyclic.of_edges_subset (List.nil_subset _)

theorem IsAcyclic.foldl_apply : ∀ {operations : List Operation} {g : Graph}, g.IsAcyclic →
    g.WellFormed → areGuarded g operations →
    (operations.foldl (fun g operation => operation.apply g) g).IsAcyclic := by
  intro operations
  induction operations with
  | nil => exact fun hacyclic _ _ => hacyclic
  | cons operation rest ih =>
      intro g hacyclic hg hguarded
      rw [areGuarded, Bool.and_eq_true] at hguarded
      exact ih (hacyclic.apply hg hguarded.1) (hg.apply operation) hguarded.2

theorem isAcyclic_empty : Graph.empty.IsAcyclic := by
  intro c hcycle
  obtain ⟨_, ⟨e, he, -⟩, -⟩ := Relation.TransGen.head'_iff.1 hcycle
  exact List.not_mem_nil he

/-- In every graph that operations make, there is a path between two ids if both are nodes and the one
reaches the other; an edge between two nodes of a graph that can be ordered leaves it so if and only if
it would not close a cycle; and operations that insert no edge that would close one make a graph that can
be ordered. -/
theorem insertion_guard_exact (operations : List Operation) :
    let g := ofOperations operations
    (∀ x y, g.hasPath x y = true ↔ (x ∈ g.ids ∧ y ∈ g.ids) ∧ g.Reaches x y) ∧
      (g.topologicalOrder.isComplete → ∀ e : Edge, e.source ∈ g.ids → e.target ∈ g.ids →
        ((g.addEdge e).topologicalOrder.isComplete = true ↔
          g.wouldCreateCycle e.source e.target = false)) ∧
      (areGuarded .empty operations → g.topologicalOrder.isComplete) := by
  intro g
  have hg : g.WellFormed := .ofOperations operations
  refine ⟨fun x y => hasPath_iff hg, fun hcomplete e hsource htarget => ?_, fun hguarded => ?_⟩
  · rw [isComplete_iff hg] at hcomplete
    rw [isComplete_iff (hg.addEdge e), ← Bool.not_eq_true, wouldCreateCycle_iff hg hsource htarget]
    refine ⟨fun hacyclic hreach => ?_, hcomplete.addEdge⟩
    exact not_isAcyclic_addEdge hsource htarget hreach hacyclic
  · exact (isComplete_iff hg).2 (isAcyclic_empty.foldl_apply .empty hguarded)

/-- Three nodes in a row, inserted under the guard: a short cut along the row leaves the graph without
cycles, and an edge from its end to its start does not. -/
theorem insertion_guard_exact_row :
    let node := fun id : Bytes => Operation.addNode ⟨id, .variable, [], [], .null, false⟩
    let edge := fun source target : Bytes => (⟨source, target, .reads, .null⟩ : Edge)
    let operations := [node "a", node "b", node "c", .addEdge (edge "a" "b"), .addEdge (edge "b" "c")]
    let g := ofOperations operations
    areGuarded .empty operations ∧ g.topologicalOrder.isComplete ∧ g.Reaches "a" "c" ∧
      (g.addEdge (edge "a" "c")).topologicalOrder.isComplete = true ∧
      (g.addEdge (edge "c" "a")).topologicalOrder.isComplete = false := by
  intro node edge operations g
  obtain ⟨hpath, hinsert, hall⟩ := insertion_guard_exact operations
  have hguarded : areGuarded .empty operations := by decide +kernel
  have hcomplete : g.topologicalOrder.isComplete := hall hguarded
  have ha : Bytes.ofString "a" ∈ g.ids := by decide +kernel
  have hc : Bytes.ofString "c" ∈ g.ids := by decide +kernel
  have hshort : g.wouldCreateCycle "a" "c" = false := by decide +kernel
  have hback : g.wouldCreateCycle "c" "a" = true := by decide +kernel
  refine ⟨hguarded, hcomplete, ((hpath "a" "c").1 (by decide +kernel)).2,
    (hinsert hcomplete (edge "a" "c") ha hc).2 hshort, ?_⟩
  rw [← Bool.not_eq_true, hinsert hcomplete (edge "c" "a") hc ha]
  exact fun hfree => Bool.false_ne_true (hfree.symm.trans hback)

end CampaignRules.Graph
