import CampaignRules.Proofs.Graph.Rebuild

/-! Removing a record against building anew without it. The node goes with the edges at it, and what
is derived from the rest is brought up to date. For an effect that is all there is to do. A condition
also stands behind edges that are not at its node: the effects it guards read the variables of its
expression. Those edges stay, so the graph is the one of the remaining records just if each guarded
effect reads the same variables through its own patch. -/

namespace CampaignRules.Graph

variable {linked : Bool} {r r' : Content} {g g' : Graph} {node : Bytes}
  {conditions : List Condition} {effects : List Effect} {c : Condition} {e : Effect}

/-- Where the record has no node, the content is without it already. -/
theorem Shows.le_without (h : Shows linked r g) (hnode : node ∉ g.ids) : r.Le (r.without node) where
  conditions c hc := Content.mem_conditions_without.2
    ⟨hc, fun heq => hnode (heq ▸ h.conditionId_mem.2 ⟨c, hc, rfl⟩)⟩
  effects e he := Content.mem_effects_without.2
    ⟨he, fun heq => hnode (heq ▸ h.effectId_mem.2 ⟨e, he, rfl⟩)⟩
  guarded _ _ := rfl

/-- Removing the node of a record succeeds, tells whether it was there, and leaves the graph up to
date for the content without the record. -/
theorem yields_removeRecord (h : Current linked r g) (hnode : IsRecordId node) :
    ∃ g', Yields (removeRecord linked node) g (g.hasNode node) g' ∧
      Current linked (r.without node) g' := by
  by_cases hmem : node ∈ g.ids
  · obtain ⟨g', hrefresh, hcurrent, -⟩ := yields_refresh (h.shows.removeNode hnode)
    refine ⟨g', (Yields.get g).bind ?_, hcurrent⟩
    rw [hasNode_iff.2 hmem, if_pos rfl]
    exact (Yields.modify _ g).bind (hrefresh.bind (.pure _ _))
  · have hfree : g.hasNode node = false := Bool.eq_false_iff.2 fun hhas => hmem (hasNode_iff.1 hhas)
    refine ⟨g, (Yields.get g).bind ?_, h.congr (h.shows.le_without hmem) (r.without_le node)⟩
    rw [hfree, if_neg Bool.false_ne_true]
    exact .pure _ _

/-- The effect reads the variable, through its guard or its patch. -/
def Content.Reads (r : Content) (e : Effect) (name : Bytes) : Prop :=
  name ∈ r.guarded e ∨ name ∈ Patch.reads e.payload

/-- Guards matter for the edges of a graph only by what the effects read. -/
theorem Current.triples_subset (h : Current linked r g) (h' : Current linked r' g')
    (hconditions : ∀ c ∈ r.conditions, c ∈ r'.conditions) (heffects : ∀ e ∈ r.effects, e ∈ r'.effects)
    (hreads : ∀ e ∈ r.effects, ∀ name, r.Reads e name → r'.Reads e name) :
    ∀ t ∈ g.triples, t ∈ g'.triples := by
  intro t ht
  rcases h.mem_triples.1 ht with ⟨e, hstates, rfl⟩ | ⟨hlinked, a, ha, b, hb, hfeeds, rfl⟩
  · cases hstates with
    | expression hc hname => exact h'.shows.complete _ (.expression (hconditions _ hc) hname)
    | guard ha hname =>
        exact (h'.shows.mem_reads (heffects _ ha)).2 ⟨_, rfl, hreads _ ha _ (.inl hname)⟩
    | patch ha hname => exact h'.shows.complete _ (.patch (heffects _ ha) hname)
    | writes ha hname => exact h'.shows.complete _ (.writes (heffects _ ha) hname)
    | ownsCondition hc => exact h'.shows.complete _ (.ownsCondition (hconditions _ hc))
    | ownsEffect ha => exact h'.shows.complete _ (.ownsEffect (heffects _ ha))
  · obtain ⟨hne, name, hread, hwrite⟩ := hfeeds
    exact (h'.chained a (heffects a ha) b (heffects b hb)).2
      ⟨hlinked, hne, name, hreads a ha name hread, hwrite⟩

theorem ids_filter_nodup {α : Type} {key : α → Bytes} {xs : List α} (hids : (xs.map key).Nodup)
    (keep : α → Bool) : ((xs.filter keep).map key).Nodup :=
  hids.sublist (List.filter_sublist.map _)

namespace Content

/-- Without a condition the effects that it guarded have no guard. -/
theorem guarded_of_removed (effects : List Effect) (hguard : e.guardId = some c.id) :
    (ofRecords (conditions.filter (·.id ≠ c.id)) effects).guarded e = [] := by
  refine guardVariables_of_forall_ne fun d hd heq => ?_
  rw [List.mem_filter, decide_eq_true_eq] at hd
  exact hd.2 (Option.some.inj (heq.symm.trans hguard))

/-- The other effects keep their guards. -/
theorem guarded_of_kept (effects : List Effect) (hids : (conditions.map (·.id)).Nodup)
    (hnamed : ∀ c ∈ conditions, c.id ≠ []) (hguard : e.guardId ≠ some c.id) :
    (ofRecords (conditions.filter (·.id ≠ c.id)) effects).guarded e =
      (ofRecords conditions effects).guarded e := by
  simp only [ofRecords]
  by_cases hother : ∃ d ∈ conditions, e.guardId = some d.id
  · obtain ⟨d, hd, hguardD⟩ := hother
    have hkept : d ∈ conditions.filter (·.id ≠ c.id) :=
      List.mem_filter.2 ⟨hd, decide_eq_true fun heq => hguard (heq ▸ hguardD)⟩
    rw [guardVariables_of_mem hids hd (hnamed d hd) hguardD,
      guardVariables_of_mem (ids_filter_nodup hids _) hkept (hnamed d hd) hguardD]
  · have hnone : ∀ d ∈ conditions, e.guardId ≠ some d.id := fun d hd heq => hother ⟨d, hd, heq⟩
    rw [guardVariables_of_forall_ne hnone,
      guardVariables_of_forall_ne fun d hd => hnone d (List.mem_filter.1 hd).1]

theorem mem_conditions_without_ofRecords (hids : (conditions.map (·.id)).Nodup) {d : Condition} :
    d ∈ ((ofRecords conditions effects).without (conditionId c.id)).conditions ↔
      d ∈ (ofRecords (conditions.filter (·.id ≠ c.id)) effects).conditions := by
  rw [mem_conditions_without, mem_conditions_ofRecords hids,
    mem_conditions_ofRecords (ids_filter_nodup hids _), List.mem_filter, decide_eq_true_eq, Ne,
    conditionId_inj, and_right_comm]

/-- Removing a condition touches no effect. -/
theorem mem_effects_without_conditionId {id : Bytes} :
    e ∈ (r.without (conditionId id)).effects ↔ e ∈ r.effects :=
  mem_effects_without.trans (and_iff_left (conditionId_ne_effectId id e.id).symm)

/-- The content without an effect and the content of the other records say the same. -/
theorem without_effectId_le (conditions : List Condition) (hids : (effects.map (·.id)).Nodup)
    (id : Bytes) :
    ((ofRecords conditions effects).without (effectId id)).Le
        (ofRecords conditions (effects.filter (·.id ≠ id))) ∧
      (ofRecords conditions (effects.filter (·.id ≠ id))).Le
        ((ofRecords conditions effects).without (effectId id)) := by
  have heffects : ∀ e, e ∈ ((ofRecords conditions effects).without (effectId id)).effects ↔
      e ∈ (ofRecords conditions (effects.filter (·.id ≠ id))).effects := by
    intro e
    rw [mem_effects_without, mem_effects_ofRecords hids,
      mem_effects_ofRecords (ids_filter_nodup hids _), List.mem_filter, decide_eq_true_eq, Ne,
      effectId_inj, and_right_comm]
  have hconditions : ∀ c, c ∈ ((ofRecords conditions effects).without (effectId id)).conditions ↔
      c ∈ (ofRecords conditions (effects.filter (·.id ≠ id))).conditions := fun c =>
    mem_conditions_without.trans (and_iff_left (conditionId_ne_effectId c.id id))
  exact ⟨⟨fun c => (hconditions c).1, fun e => (heffects e).1, fun _ _ => rfl⟩,
    ⟨fun c => (hconditions c).2, fun e => (heffects e).2, fun _ _ => rfl⟩⟩

end Content

/-- Some effect that has a node is guarded by the condition, which reads a variable that the patch of
the effect does not. -/
def LeavesReads (effects : List Effect) (c : Condition) : Prop :=
  ∃ e ∈ effects, e.isActive = true ∧ usableEffect e = true ∧ e.guardId = some c.id ∧
    ∃ name ∈ activeReads c, name ∉ Patch.reads e.payload

/-- What stays behind after the removal of a condition is all that tells the graph from the one of the
remaining records. -/
theorem agrees_removed_condition_iff (hids : (conditions.map (·.id)).Nodup)
    (hnamed : ∀ c ∈ conditions, c.id ≠ []) (heffects : (effects.map (·.id)).Nodup)
    (hc : c ∈ conditions) {fresh : Graph}
    (h : Current linked ((Content.ofRecords conditions effects).without (conditionId c.id)) g)
    (hfresh : Current linked (.ofRecords (conditions.filter (·.id ≠ c.id)) effects) fresh)
    (hattached : Attached fresh) : Agrees g fresh ↔ ¬LeavesReads effects c := by
  have hsame : ∀ e, e ∈ ((Content.ofRecords conditions effects).without (conditionId c.id)).effects ↔
      e ∈ (Content.ofRecords (conditions.filter (·.id ≠ c.id)) effects).effects := fun _ =>
    Content.mem_effects_without_conditionId
  have hstale : ∀ e, e.guardId = some c.id →
      ((Content.ofRecords conditions effects).without (conditionId c.id)).guarded e = activeReads c :=
    fun _ => Content.guardVariables_of_mem hids hc (hnamed c hc)
  have hkept : ∀ e, e.guardId ≠ some c.id →
      (Content.ofRecords (conditions.filter (·.id ≠ c.id)) effects).guarded e =
        ((Content.ofRecords conditions effects).without (conditionId c.id)).guarded e := fun _ =>
    Content.guarded_of_kept effects hids hnamed
  constructor
  · rintro hagrees ⟨e, he, hactive, husable, hguard, name, hname, hpatch⟩
    have hmem : e ∈ (Content.ofRecords conditions effects).effects :=
      (Content.mem_effects_ofRecords heffects).2 ⟨he, hactive, husable⟩
    have hread : (effectId e.id, variableId name, EdgeType.reads) ∈ g.triples := by
      refine (h.shows.mem_reads ((hsame e).2 hmem)).2 ⟨name, rfl, .inl ?_⟩
      rwa [hstale e hguard]
    obtain ⟨other, heq, hother⟩ := (hfresh.shows.mem_reads hmem).1 (hagrees.triples.mem_iff.1 hread)
    rw [← variableId_inj.1 heq, Content.guarded_of_removed effects hguard] at hother
    exact hother.elim List.not_mem_nil hpatch
  · intro hleaves
    refine h.agrees_of_triples hfresh (fun d => Content.mem_conditions_without_ofRecords hids) hsame
      (fun t => ⟨?_, ?_⟩) hattached
    · refine h.triples_subset hfresh (fun d => (Content.mem_conditions_without_ofRecords hids).1)
        (fun e => (hsame e).1) (fun e he name hread => ?_) t
      by_cases hguard : e.guardId = some c.id
      · refine .inr (hread.elim (fun hname => ?_) id)
        obtain ⟨hmem, hactive, husable⟩ := (Content.mem_effects_ofRecords heffects).1 ((hsame e).1 he)
        rw [hstale e hguard] at hname
        by_contra hpatch
        exact hleaves ⟨e, hmem, hactive, husable, hguard, name, hname, hpatch⟩
      · rwa [Content.Reads, hkept e hguard]
    · refine hfresh.triples_subset h (fun d => (Content.mem_conditions_without_ofRecords hids).2)
        (fun e => (hsame e).2) (fun e he name hread => ?_) t
      by_cases hguard : e.guardId = some c.id
      · rw [Content.Reads, Content.guarded_of_removed effects hguard] at hread
        exact .inr (hread.resolve_left List.not_mem_nil)
      · rwa [Content.Reads, hkept e hguard] at hread

/-- Removing an effect from a built graph gives the graph that is built from the other records.
Removing a condition gives it just if none of the reads of the condition stay behind. -/
theorem removal_agrees_with_rebuild (linkChains : Bool) (conditions : List Condition)
    (effects : List Effect) (entities : List Entity) (hids : (conditions.map (·.id)).Nodup)
    (hnamed : ∀ c ∈ conditions, c.id ≠ []) (heffects : (effects.map (·.id)).Nodup) :
    let built := (GraphBuild.ofRecords linkChains conditions effects entities).graph
    (∀ e ∈ effects, ∃ g,
      (removeRecord linkChains (effectId e.id)).run built = (.ok (built.hasNode (effectId e.id)), g) ∧
      Agrees g (GraphBuild.ofRecords linkChains conditions (effects.filter (·.id ≠ e.id))
        entities).graph) ∧
    ∀ c ∈ conditions, ∃ g,
      (removeRecord linkChains (conditionId c.id)).run built =
        (.ok (built.hasNode (conditionId c.id)), g) ∧
      (Agrees g (GraphBuild.ofRecords linkChains (conditions.filter (·.id ≠ c.id)) effects
        entities).graph ↔ ¬LeavesReads effects c) := by
  intro built
  have hbuilt : Current linkChains (.ofRecords conditions effects) built :=
    current_ofRecords conditions effects entities
  refine ⟨fun e _ => ?_, fun c hc => ?_⟩
  · obtain ⟨g, hyields, hcurrent⟩ := yields_removeRecord hbuilt ⟨e.id, .inr rfl⟩
    obtain ⟨hle, hge⟩ := Content.without_effectId_le conditions heffects e.id
    exact ⟨g, hyields, (hcurrent.congr hle hge).agrees (current_ofRecords _ _ _)
      (attached_ofRecords _ _ _)⟩
  · obtain ⟨g, hyields, hcurrent⟩ := yields_removeRecord hbuilt ⟨c.id, .inl rfl⟩
    exact ⟨g, hyields, agrees_removed_condition_iff hids hnamed heffects hc hcurrent
      (current_ofRecords _ _ _) (attached_ofRecords _ _ _)⟩

/-- Without its guard a tax that inspects the gold itself still reads it, and stays on a cycle with the
trade that it feeds; without the trade it is on no cycle. -/
theorem removal_agrees_with_rebuild_tax :
    let town : EntityRef := ⟨"SETTLEMENT", "s1"⟩
    let rich : Condition := ⟨"rich", "SETTLEMENT", some "s1", "isRich",
      .object [(">", .array [.object [("var", "gold")], .unsigned 1])], [], 0, true, 1, [], []⟩
    let tax : Effect := ⟨"tax", "tax", town, .pre, 0,
      .array [.object [("op", "test"), ("path", "/variables/gold"), ("value", .unsigned 5)],
        .object [("op", "add"), ("path", "/variables/food"), ("value", .unsigned 1)]],
      true, some "rich", [], [], []⟩
    let trade : Effect := ⟨"trade", "trade", town, .pre, 0,
      .array [.object [("op", "copy"), ("from", "/variables/food"), ("path", "/variables/gold")]],
      true, none, [], [], []⟩
    let built := (GraphBuild.ofRecords true [rich] [tax, trade] []).graph
    (∃ g, (removeRecord true (effectId "trade")).run built = (.ok true, g) ∧
      (g.node? (effectId "tax")).map (·.inCycle) = some false) ∧
    ∃ g, (removeRecord true (conditionId "rich")).run built = (.ok true, g) ∧
      (effectId "tax", variableId "gold", .reads) ∈ g.triples ∧
      (g.node? (effectId "tax")).map (·.inCycle) = some true := by
  intro town rich tax trade built
  obtain ⟨heffects, hconditions⟩ :=
    removal_agrees_with_rebuild true [rich] [tax, trade] [] (by decide) (by decide) (by decide)
  obtain ⟨g, hrun, hagrees⟩ := heffects trade (.tail _ (.head _))
  obtain ⟨g', hrun', hagrees'⟩ := hconditions rich (.head _)
  have htrade : built.hasNode (effectId trade.id) = true := by decide +kernel
  have hrich : built.hasNode (conditionId rich.id) = true := by decide +kernel
  have hnothing : ¬LeavesReads [tax, trade] rich := by
    unfold LeavesReads
    decide +kernel
  have hrest := hagrees'.2 hnothing
  have hfree : ∃ n ∈ (GraphBuild.ofRecords true [rich] ([tax, trade].filter (·.id ≠ trade.id))
      []).graph.nodes, n.id = effectId "tax" ∧ n.inCycle = false := by decide +kernel
  have hloop : ∃ n ∈ (GraphBuild.ofRecords true ([rich].filter (·.id ≠ rich.id)) [tax, trade]
      []).graph.nodes, n.id = effectId "tax" ∧ n.inCycle = true := by decide +kernel
  rw [htrade] at hrun
  rw [hrich] at hrun'
  refine ⟨⟨g, hrun, ?_⟩, g', hrun', ?_, ?_⟩
  · obtain ⟨n, hn, hid, hmark⟩ := hfree
    rw [← hid, hagrees.marks n hn, hmark]
  · rw [hrest.triples.mem_iff]
    decide +kernel
  · obtain ⟨n, hn, hid, hmark⟩ := hloop
    rw [← hid, hrest.marks n hn, hmark]

/-- A tax that does not inspect the gold goes on reading it when its guard is removed. It stays on a
cycle with a trade in gold, where the graph of the tax and the trade has none. -/
theorem removed_guard_still_read :
    let town : EntityRef := ⟨"SETTLEMENT", "s1"⟩
    let rich : Condition := ⟨"rich", "SETTLEMENT", some "s1", "isRich",
      .object [(">", .array [.object [("var", "gold")], .unsigned 1])], [], 0, true, 1, [], []⟩
    let tax : Effect := ⟨"tax", "tax", town, .pre, 0,
      .array [.object [("op", "add"), ("path", "/variables/food"), ("value", .unsigned 1)]],
      true, some "rich", [], [], []⟩
    let trade : Effect := ⟨"trade", "trade", town, .pre, 0,
      .array [.object [("op", "copy"), ("from", "/variables/food"), ("path", "/variables/gold")]],
      true, none, [], [], []⟩
    let removed := ((removeRecord true (conditionId "rich")).run
      (GraphBuild.ofRecords true [rich] [tax, trade] []).graph).2
    let rebuilt := (GraphBuild.ofRecords true [] [tax, trade] []).graph
    (effectId "tax", variableId "gold", .reads) ∈ removed.triples ∧
      (effectId "tax", variableId "gold", .reads) ∉ rebuilt.triples ∧
      (removed.node? (effectId "tax")).map (·.inCycle) = some true ∧
      (rebuilt.node? (effectId "tax")).map (·.inCycle) = some false := by
  decide +kernel

end CampaignRules.Graph
