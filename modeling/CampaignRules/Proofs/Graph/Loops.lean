import CampaignRules.Proofs.Graph.Update

/-! Effects on loops. The effects on cycles are read off the nodes of a graph, which in a graph of
records carry the ids of their records. With links, a loop of effects each of which reads what the next
one writes is a walk along edges, so its effects are among those on cycles. -/

namespace CampaignRules.Graph

/-- Where a function returns for all items, so does its sweep over the list, with all that it returns. -/
theorem exists_mapM_eq_ok {ε α β : Type} {f : α → Except ε β} {xs : List α}
    (hok : ∀ x ∈ xs, ∃ y, f x = .ok y) :
    ∃ ys, xs.mapM f = .ok ys ∧ ∀ y, y ∈ ys ↔ ∃ x ∈ xs, f x = .ok y := by
  induction xs with
  | nil => exact ⟨[], rfl, by simp⟩
  | cons x rest ih =>
      rw [List.forall_mem_cons] at hok
      obtain ⟨y, hy⟩ := hok.1
      obtain ⟨ys, hys, hmem⟩ := ih hok.2
      refine ⟨y :: ys, by rw [List.mapM_cons, hy, hys]; rfl, fun found => ?_⟩
      rw [List.mem_cons, List.exists_mem_cons_iff, hmem, hy, Except.ok.injEq, eq_comm]

variable {linked : Bool} {r : Content} {g : Graph}

theorem metadataText_effectNode (e : Effect) :
    metadataText "effectId" (effectNode e).metadata = .ok e.id := rfl

/-- The nodes of effects on cycles are those of effects with a walk back to themselves. -/
theorem Shows.mem_cyclicNodes (h : Shows linked r g) {n : Node} :
    n ∈ (g.cycleMembers.filterMap fun id => g.node? id).filter (fun n => n.type = .effect) ↔
      n ∈ g.nodes ∧ n.type = .effect ∧ Relation.TransGen g.Adj n.id n.id := by
  simp only [List.mem_filter, List.mem_filterMap, decide_eq_true_eq, mem_cycleMembers_iff h.wellFormed,
    node?_eq_some_iff h.wellFormed]
  constructor
  · rintro ⟨⟨_, hcycle, hn, rfl⟩, htype⟩
    exact ⟨hn, htype, hcycle⟩
  · rintro ⟨hn, htype, hcycle⟩
    exact ⟨⟨n.id, hcycle, hn, rfl⟩, htype⟩

/-- The effects on cycles of a graph of records can be told, and they are those with a walk back to
themselves. -/
theorem Shows.cyclicEffects_eq (h : Shows linked r g) :
    ∃ ids, g.cyclicEffects = .ok ids ∧
      ∀ id, id ∈ ids ↔ ∃ e ∈ r.effects, e.id = id ∧
        Relation.TransGen g.Adj (effectId e.id) (effectId e.id) := by
  have hname : ∀ n ∈ g.nodes, n.type = .effect → ∃ e ∈ r.effects, n.id = effectId e.id ∧
      metadataText "effectId" n.metadata = .ok e.id := by
    intro n hn htype
    obtain ⟨e, he, hid, hmetadata⟩ := (h.node n hn).of_effect htype
    exact ⟨e, he, hid, hmetadata ▸ metadataText_effectNode e⟩
  obtain ⟨ids, hids, hmem⟩ := exists_mapM_eq_ok (f := fun n : Node => metadataText "effectId" n.metadata)
    fun n hn => by
      obtain ⟨hn, htype, -⟩ := h.mem_cyclicNodes.1 hn
      obtain ⟨e, -, -, htext⟩ := hname n hn htype
      exact ⟨e.id, htext⟩
  refine ⟨Bytes.sortedSet ids, by rw [cyclicEffects, hids]; rfl, fun id => ?_⟩
  rw [Bytes.mem_sortedSet, hmem]
  constructor
  · rintro ⟨n, hn, htext⟩
    obtain ⟨hn, htype, hcycle⟩ := h.mem_cyclicNodes.1 hn
    obtain ⟨e, he, hid, htext'⟩ := hname n hn htype
    exact ⟨e, he, Except.ok.inj (htext'.symm.trans htext), hid ▸ hcycle⟩
  · rintro ⟨e, he, rfl, hcycle⟩
    obtain ⟨n, hn, hid, htype, hmetadata⟩ := h.exists_effectNode he
    exact ⟨n, h.mem_cyclicNodes.2 ⟨hn, htype, hid ▸ hcycle⟩, hmetadata ▸ metadataText_effectNode e⟩

/-- Effects each of which reads what the next one writes are joined by a walk along links. -/
theorem Current.walk_of_chain (h : Current true r g) {reads : Effect → Effect → Prop}
    (hfeeds : ∀ a b, reads a b → a ∈ r.effects ∧ b ∈ r.effects ∧ r.Feeds a b) {e e' : Effect}
    (hchain : Relation.TransGen reads e e') :
    Relation.TransGen g.Adj (effectId e.id) (effectId e'.id) := by
  refine hchain.lift (effectId ·.id) fun a b hreads => ?_
  obtain ⟨ha, hb, hfeeds⟩ := hfeeds a b hreads
  obtain ⟨edge, hedge, hsource, htarget, -⟩ := mem_triples_iff.1 ((h.chained a ha b hb).2 ⟨rfl, hfeeds⟩)
  exact ⟨edge, hedge, hsource, htarget⟩

end CampaignRules.Graph
