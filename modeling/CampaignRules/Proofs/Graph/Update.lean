import CampaignRules.Graph.Update
import CampaignRules.Proofs.Graph.Refresh

/-! Changing one condition of a graph. The graph shows its content all the way: the node of the
condition goes, the new one comes, and each effect that the condition guards has its guard reads
replaced. An edge from the guard may have stood in for one from the patch, so those are added again;
whichever of the two stays, the triple is the same. In the end the graph shows the content of the
records with the condition in its new place, as a graph built from them does. -/

namespace CampaignRules.Graph

variable {linked : Bool} {r r' : Content} {g g' : Graph} {id : Bytes}

theorem Shows.congr (h : Shows linked r g) (hle : r.Le r') (hge : r'.Le r) : Shows linked r' g where
  wellFormed := h.wellFormed
  effect_unique a ha b hb := h.effect_unique a (hge.effects a ha) b (hge.effects b hb)
  node n hn := (h.node n hn).mono hle.conditions hle.effects
  sound e he := (h.sound e he).imp (·.mono hle) (·.imp_right (·.mono hle.effects))
  complete e he := h.complete e (he.mono hge)

/-- What the guards of other effects would read does not matter. -/
theorem Shows.withGuarded (h : Shows linked r g) {guarded : Effect → List Bytes}
    (hsame : ∀ e ∈ r.effects, guarded e = r.guarded e) : Shows linked { r with guarded } g :=
  h.congr ⟨fun _ hc => hc, fun _ he => he, hsame⟩
    ⟨fun _ hc => hc, fun _ he => he, fun e he => (hsame e he).symm⟩

/-- The id is one of nodes of conditions or of effects. -/
def IsRecordId (node : Bytes) : Prop :=
  ∃ id, node = conditionId id ∨ node = effectId id

/-- The content without the condition or the effect that has the node. -/
def Content.without (r : Content) (node : Bytes) : Content :=
  { r with
    conditions := r.conditions.filter (conditionId ·.id ≠ node)
    effects := r.effects.filter (effectId ·.id ≠ node) }

section

variable {node : Bytes} {e : Edge}

theorem IsRecordId.ne_variableId (hnode : IsRecordId node) (name : Bytes) : variableId name ≠ node := by
  obtain ⟨id, rfl | rfl⟩ := hnode
  · exact (conditionId_ne_variableId id name).symm
  · exact (effectId_ne_variableId id name).symm

theorem IsRecordId.ne_entityId (hnode : IsRecordId node) (ref : EntityRef) : entityId ref ≠ node := by
  obtain ⟨id, rfl | rfl⟩ := hnode
  · exact (conditionId_ne_entityId id ref).symm
  · exact (effectId_ne_entityId id ref).symm

namespace Content

theorem mem_conditions_without {c : Condition} :
    c ∈ (r.without node).conditions ↔ c ∈ r.conditions ∧ conditionId c.id ≠ node := by
  simp [without]

theorem mem_effects_without {a : Effect} :
    a ∈ (r.without node).effects ↔ a ∈ r.effects ∧ effectId a.id ≠ node := by
  simp [without]

theorem without_le (r : Content) (node : Bytes) : (r.without node).Le r :=
  ⟨fun _ hc => (mem_conditions_without.1 hc).1, fun _ ha => (mem_effects_without.1 ha).1,
    fun _ _ => rfl⟩

/-- An edge that is stated without the record does not touch its node. -/
theorem States.avoids (he : (r.without node).States e) (hnode : IsRecordId node) :
    e.source ≠ node ∧ e.target ≠ node := by
  cases he with
  | expression hc _ => exact ⟨(mem_conditions_without.1 hc).2, hnode.ne_variableId _⟩
  | guard ha _ | patch ha _ | writes ha _ =>
      exact ⟨(mem_effects_without.1 ha).2, hnode.ne_variableId _⟩
  | ownsCondition hc => exact ⟨hnode.ne_entityId _, (mem_conditions_without.1 hc).2⟩
  | ownsEffect ha => exact ⟨hnode.ne_entityId _, (mem_effects_without.1 ha).2⟩

/-- An edge that does not touch the node is stated without the record too. -/
theorem States.without (he : r.States e) (hsource : e.source ≠ node) (htarget : e.target ≠ node) :
    (r.without node).States e := by
  cases he with
  | expression hc hname => exact .expression (mem_conditions_without.2 ⟨hc, hsource⟩) hname
  | guard ha hname => exact .guard (mem_effects_without.2 ⟨ha, hsource⟩) hname
  | patch ha hname => exact .patch (mem_effects_without.2 ⟨ha, hsource⟩) hname
  | writes ha hname => exact .writes (mem_effects_without.2 ⟨ha, hsource⟩) hname
  | ownsCondition hc => exact .ownsCondition (mem_conditions_without.2 ⟨hc, htarget⟩)
  | ownsEffect ha => exact .ownsEffect (mem_effects_without.2 ⟨ha, htarget⟩)

theorem Chains.without (he : r.Chains e) (hsource : e.source ≠ node) (htarget : e.target ≠ node) :
    (r.without node).Chains e := by
  obtain ⟨a, ha, b, hb, heqA, heqB, htype⟩ := he
  exact ⟨a, mem_effects_without.2 ⟨ha, heqA ▸ hsource⟩, b, mem_effects_without.2 ⟨hb, heqB ▸ htarget⟩,
    heqA, heqB, htype⟩

theorem Holds.without {n : Node} (hn : r.Holds n) (hne : n.id ≠ node) : (r.without node).Holds n := by
  cases hn with
  | ofVariable name mark => exact .ofVariable name mark
  | ofEntity labels ref mark => exact .ofEntity labels ref mark
  | ofCondition hc mark => exact .ofCondition (mem_conditions_without.2 ⟨hc, hne⟩) mark
  | ofEffect ha mark => exact .ofEffect (mem_effects_without.2 ⟨ha, hne⟩) mark

end Content

/-- Without the node of a record, and the edges at it, a graph shows the content without the record. -/
theorem Shows.removeNode (h : Shows linked r g) (hnode : IsRecordId node) :
    Shows linked (r.without node) (g.removeNode node) where
  wellFormed := h.wellFormed.removeNode node
  effect_unique a ha b hb :=
    h.effect_unique a ((r.without_le node).effects a ha) b ((r.without_le node).effects b hb)
  node n hn := by
    obtain ⟨hmem, hne⟩ := List.mem_filter.1 hn
    exact (h.node n hmem).without (of_decide_eq_true hne)
  sound e he := by
    obtain ⟨hmem, hne⟩ := List.mem_filter.1 he
    rw [Bool.and_eq_true, decide_eq_true_eq, decide_eq_true_eq] at hne
    exact (h.sound e hmem).imp (·.without hne.1 hne.2) (·.imp_right (·.without hne.1 hne.2))
  complete e he := by
    obtain ⟨e', he', htriple⟩ := List.mem_map.1 (h.complete e (he.mono (r.without_le node)))
    obtain ⟨hsource, htarget, -⟩ := Edge.triple_eq_iff.1 htriple
    have hends := he.avoids hnode
    rw [← hsource, ← htarget] at hends
    exact List.mem_map.2 ⟨e', List.mem_filter.2 ⟨he', by simpa using hends⟩, htriple⟩

end

def Content.withoutCondition (r : Content) (id : Bytes) : Content :=
  { r with conditions := r.conditions.filter (·.id ≠ id) }

theorem Content.mem_withoutCondition {c : Condition} :
    c ∈ (r.withoutCondition id).conditions ↔ c ∈ r.conditions ∧ c.id ≠ id := by
  simp [withoutCondition]

theorem Shows.removeCondition (h : Shows linked r g) (id : Bytes) :
    Shows linked (r.withoutCondition id) (g.removeNode (conditionId id)) := by
  refine (h.removeNode ⟨id, .inl rfl⟩).congr ⟨fun c hc => ?_, fun a ha => ?_, fun _ _ => rfl⟩
    ⟨fun c hc => ?_, fun a ha => ?_, fun _ _ => rfl⟩
  · obtain ⟨hmem, hne⟩ := Content.mem_conditions_without.1 hc
    exact Content.mem_withoutCondition.2 ⟨hmem, fun heq => hne (congrArg conditionId heq)⟩
  · exact (Content.mem_effects_without.1 ha).1
  · obtain ⟨hmem, hne⟩ := Content.mem_withoutCondition.1 hc
    exact Content.mem_conditions_without.2 ⟨hmem, fun heq => hne (conditionId_inj.1 heq)⟩
  · exact Content.mem_effects_without.2 ⟨ha, (conditionId_ne_effectId _ _).symm⟩

/-- What a loop over some edges that removes the guard reads among them leaves of a graph. -/
def Dropped (g : Graph) (edges : List Edge) (g' : Graph) : Prop :=
  ∃ keep : Edge → Bool, g' = { g with edges := g.edges.filter keep } ∧
    ∀ e, keep e = true ↔ ∀ d ∈ edges, GuardRead d → e.triple ≠ d.triple

theorem matchesEnds_iff {d e : Edge} :
    matchesEnds d.source d.target (some d.type) e = true ↔ e.triple = d.triple := by
  refine Iff.trans ?_ Edge.triple_eq_iff.symm
  simp only [matchesEnds, Bool.and_eq_true, decide_eq_true_eq, Option.all_some, and_assoc]
  exact and_congr_right fun _ => and_congr_right fun _ => eq_comm

theorem Dropped.not_guardRead {edges : List Edge} {d : Edge} (h : Dropped g edges g')
    (hd : ¬GuardRead d) : Dropped g (edges ++ [d]) g' := by
  obtain ⟨keep, rfl, hkeep⟩ := h
  refine ⟨keep, rfl, fun e => (hkeep e).trans ?_⟩
  rw [List.forall_mem_append, List.forall_mem_singleton]
  exact ⟨fun hall => ⟨hall, fun hguard => absurd hguard hd⟩, And.left⟩

theorem Dropped.guardRead {edges : List Edge} {d : Edge} (h : Dropped g edges g') (hd : GuardRead d) :
    Dropped g (edges ++ [d]) (g'.removeEdge d.source d.target (some .reads)) := by
  obtain ⟨keep, rfl, hkeep⟩ := h
  refine ⟨fun e => !matchesEnds d.source d.target (some .reads) e && keep e, ?_, fun e => ?_⟩
  · rw [removeEdge, List.filter_filter]
  · rw [Bool.and_eq_true, hkeep, Bool.not_eq_true', Bool.eq_false_iff, ← hd.1, Ne, matchesEnds_iff,
      List.forall_mem_append, List.forall_mem_singleton, and_comm]
    exact and_congr_right fun _ => ⟨fun hne _ => hne, fun hne => hne hd⟩

theorem yields_dropGuardReads (h : Shows linked r g) (effect : Bytes) :
    ∃ g', Yields (dropGuardReads effect) g () g' ∧ Dropped g (g.outgoing effect) g' := by
  refine Yields.seq (P := (g = ·)) ⟨g, .get g, rfl⟩ ?_
  rintro _ rfl
  refine Yields.seq (Yields.forIn (Dropped g) ?_ ?_) fun g' hdropped => ⟨g', .pure _ _, hdropped⟩
  · exact ⟨fun _ => true, by simp, by simp⟩
  · intro done d rest g₁ hxs hdone
    have hmem : d ∈ g.outgoing effect := by simp [hxs]
    have hd : d ∈ g.edges := (List.mem_filter.1 hmem).1
    by_cases hreads : d.type = .reads
    · obtain ⟨-, reason, -, hreason⟩ := h.metadataText_reads hd hreads
      by_cases hguard : reason = "guard"
      · refine ⟨_, ?_, hdone.guardRead ⟨hreads, hguard ▸ hreason⟩⟩
        rw [if_pos hreads]
        refine (Yields.liftExcept hreason).bind ?_
        rw [if_pos hguard]
        exact (Yields.modify _ _).bind (.pure _ _)
      · refine ⟨g₁, ?_, hdone.not_guardRead fun hd => ?_⟩
        · rw [if_pos hreads]
          refine (Yields.liftExcept hreason).bind ?_
          rw [if_neg hguard]
          exact .pure _ _
        · exact hguard (Except.ok.inj (hreason.symm.trans hd.2))
    · refine ⟨g₁, ?_, hdone.not_guardRead fun hd => hreads hd.1⟩
      rw [if_neg hreads]
      exact .pure _ _

theorem patchReads_effectNode (e : Effect) :
    (effectNode e).metadata.get? "patchReads" = some (.ofTexts (Patch.reads e.payload)) := rfl

theorem yields_restorePatchReads {e : Effect} {n : Node} (hfound : g.node? (effectId e.id) = some n)
    (hn : n.metadata = (effectNode e).metadata) :
    Yields (restorePatchReads (effectId e.id)) g ()
      (g.addEdges ((Patch.reads e.payload).map (readsEdge (effectId e.id) · "patch"))) := by
  suffices h : ∃ g', Yields (restorePatchReads (effectId e.id)) g () g' ∧
      g' = g.addEdges ((Patch.reads e.payload).map (readsEdge (effectId e.id) · "patch")) by
    obtain ⟨_, hyields, rfl⟩ := h
    exact hyields
  refine Yields.seq (P := (g = ·)) ⟨g, .get g, rfl⟩ ?_
  rintro _ rfl
  have hmetadata : (g.node? (effectId e.id)).elim .null (·.metadata) = (effectNode e).metadata := by
    rw [hfound]
    exact hn
  have hobject : (!(effectNode e).metadata.isObject) = false := rfl
  simp only [hmetadata, hobject, patchReads_effectNode, Bool.false_eq_true, if_false]
  refine Yields.seq (Yields.forIn (fun done g' => g' = g.addEdges ((done.filterMap Json.text?).map
    (readsEdge (effectId e.id) · "patch"))) ?_ ?_) fun g' h => ⟨g', .pure _ _, ?_⟩
  · rfl
  · intro done name rest g₁ hxs hg₁
    have hnames : (Patch.reads e.payload).map Json.string = done ++ name :: rest := hxs
    obtain ⟨text, -, rfl⟩ := List.mem_map.1
      (hnames ▸ List.mem_append_right done (List.mem_cons_self (a := name) (l := rest)))
    refine ⟨_, (Yields.modify _ _).bind (.pure _ _), ?_⟩
    rw [hg₁, List.filterMap_append, List.map_append, addEdges, addEdges, List.foldl_append]
    rfl
  · rw [h]
    congr 2
    exact List.filterMap_map.trans List.filterMap_some

/-- The content with other guard reads of some effects, which are given by the ids of their nodes. -/
def Content.withGuard (r : Content) (effects : List Bytes) (reads : List Bytes) : Content :=
  { r with guarded := fun e => if effectId e.id ∈ effects then reads else r.guarded e }

theorem Content.guarded_withGuard {effects reads : List Bytes} {e : Effect} :
    (r.withGuard effects reads).guarded e =
      if effectId e.id ∈ effects then reads else r.guarded e := rfl

/-- The edges of the graph without the guard reads of an effect are stated whatever its guard reads. -/
theorem Shows.sound_dropped (h : Shows linked r g) {effect : Bytes} {reads : List Bytes}
    (hdropped : Dropped g (g.outgoing effect) g') :
    ∀ e ∈ g'.edges, (r.withGuard [effect] reads).States e ∨
      linked = true ∧ (r.withGuard [effect] reads).Chains e := by
  obtain ⟨keep, rfl, hkeep⟩ := hdropped
  intro e he
  obtain ⟨hmem, hkept⟩ := List.mem_filter.1 he
  refine (h.sound e hmem).imp (fun hstates => ?_) id
  refine hstates.transfer (fun _ hc => hc) (fun _ hb => hb) fun a ha hsource hguard => ?_
  rw [Content.guarded_withGuard, if_neg]
  intro heffect
  have hout : e ∈ g.outgoing effect := by
    rw [outgoing, List.mem_filter, hsource, List.mem_singleton.1 heffect]
    exact ⟨hmem, decide_eq_true rfl⟩
  exact (hkeep e).1 hkept e hout hguard rfl

/-- All other edges are still there. -/
theorem Shows.complete_dropped (h : Shows linked r g) {effect : Bytes} {reads : List Bytes}
    (hdropped : Dropped g (g.outgoing effect) g') {e : Edge}
    (he : (r.withGuard [effect] reads).States e) (hother : ¬(e.source = effect ∧ e.type = .reads)) :
    e.triple ∈ g'.triples := by
  obtain ⟨keep, rfl, hkeep⟩ := hdropped
  have hstates : r.States e := by
    refine he.transfer (fun _ hc => hc) (fun _ hb => hb) fun a ha hsource hguard => ?_
    rw [Content.guarded_withGuard, if_neg]
    exact fun heffect => hother ⟨hsource.trans (List.mem_singleton.1 heffect), hguard.1⟩
  obtain ⟨e', he', htriple⟩ := List.mem_map.1 (h.complete e hstates)
  refine List.mem_map.2 ⟨e', List.mem_filter.2 ⟨he', (hkeep e').2 fun d hd hguard heq => ?_⟩, htriple⟩
  have hsource : d.source = effect := of_decide_eq_true (List.mem_filter.1 hd).2
  obtain ⟨hsame, -, htype⟩ := Edge.triple_eq_iff.1 (htriple ▸ heq)
  exact hother ⟨hsame.trans hsource, htype.trans hguard.1⟩

/-- The node of an effect carries the metadata of its record. -/
theorem Shows.exists_effectNode (h : Shows linked r g) {e : Effect} (he : e ∈ r.effects) :
    ∃ n ∈ g.nodes, n.id = effectId e.id ∧ n.type = .effect ∧
      n.metadata = (effectNode e).metadata := by
  obtain ⟨n, hn, hid⟩ := List.mem_map.1 (h.effectId_mem.2 ⟨e, he, rfl⟩)
  obtain ⟨d, hd, heq, htype, hmetadata⟩ := (h.node n hn).of_effectId hid
  rw [h.effect_unique d hd e he heq] at hmetadata
  exact ⟨n, hn, hid, htype, hmetadata⟩

/-- All reads of the effect are from its guard or its patch. -/
theorem Shows.mem_readsEdges (h : Shows linked r g) {e : Effect} (he : e ∈ r.effects)
    {reads : List Bytes} {d : Edge} (hd : (r.withGuard [effectId e.id] reads).States d)
    (hsource : d.source = effectId e.id) (hreads : d.type = .reads) :
    d ∈ reads.map (readsEdge (effectId e.id) · "guard") ++
      (Patch.reads e.payload).map (readsEdge (effectId e.id) · "patch") := by
  rw [List.mem_append]
  cases hd with
  | expression hc hname => exact absurd hsource (conditionId_ne_effectId _ _)
  | guard hb hname =>
      rw [h.effect_unique _ hb _ he (effectId_inj.1 hsource)] at hname ⊢
      rw [Content.guarded_withGuard, if_pos (List.mem_singleton.2 rfl)] at hname
      exact .inl (List.mem_map_of_mem hname)
  | patch hb hname =>
      rw [h.effect_unique _ hb _ he (effectId_inj.1 hsource)] at hname ⊢
      exact .inr (List.mem_map_of_mem hname)
  | writes _ _ | ownsCondition _ | ownsEffect _ => cases hreads

/-- Replacing the guard reads of one effect. -/
theorem yields_replaceGuardReads (h : Shows linked r g) {e : Effect} (he : e ∈ r.effects)
    (reads : List Bytes) :
    ∃ g', Yields (do
        dropGuardReads (effectId e.id)
        modify fun g => addVariableEdges (readsEdge (effectId e.id) · "guard") reads g
        restorePatchReads (effectId e.id)
        return ForInStep.yield PUnit.unit) g (.yield PUnit.unit) g' ∧
      Shows linked (r.withGuard [effectId e.id] reads) g' := by
  let r' : Content := r.withGuard [effectId e.id] reads
  have hreads : r'.guarded e = reads := if_pos (List.mem_singleton.2 rfl)
  obtain ⟨g₁, hdrop, hdropped⟩ := yields_dropGuardReads h (effectId e.id)
  have hwellFormed : g₁.WellFormed ∧ g₁.nodes = g.nodes := by
    obtain ⟨keep, rfl, -⟩ := hdropped
    exact ⟨h.wellFormed.filterEdges keep, rfl⟩
  have hids : g₁.ids = g.ids := congrArg (List.map Node.id) hwellFormed.2
  obtain ⟨n, hn, hid, -, hmetadata⟩ := h.exists_effectNode he
  have heffect : effectId e.id ∈ g₁.ids := hids ▸ h.effectId_mem.2 ⟨e, he, rfl⟩
  -- the reads of the guard, with their variables
  have hguard : Adds r' (reads.map (readsEdge (effectId e.id) · "guard")) g₁
      (addVariableEdges (readsEdge (effectId e.id) · "guard") reads g₁) :=
    adds_variableEdges _ heffect (fun _ => ⟨rfl, rfl⟩) fun name hname => .guard he (hreads.symm ▸ hname)
  have hmodify := Yields.modify
    (fun g => addVariableEdges (readsEdge (effectId e.id) · "guard") reads g) g₁
  generalize addVariableEdges (readsEdge (effectId e.id) · "guard") reads g₁ = g₂ at hguard hmodify
  -- the reads of the patch, whose variables are there since the effect was added
  have hfound : g₂.node? (effectId e.id) = some n :=
    (node?_eq_some_iff (hguard.grows.wellFormed hwellFormed.1)).2
      ⟨hguard.grows.nodes n (hwellFormed.2 ▸ hn), hid⟩
  have hrestore := yields_restorePatchReads hfound hmetadata
  have hpatch : Adds r' ((Patch.reads e.payload).map (readsEdge (effectId e.id) · "patch")) g₂
      (g₂.addEdges ((Patch.reads e.payload).map (readsEdge (effectId e.id) · "patch"))) := by
    refine adds_edges (List.forall_mem_map.2 fun name hname => ?_)
      (List.forall_mem_map.2 fun name hname => .patch he hname)
    exact ⟨hguard.grows.ids heffect, hguard.grows.ids (hids ▸ (h.edge_of_states (.patch he hname)).2)⟩
  have hadds := hguard.trans hpatch
  generalize g₂.addEdges ((Patch.reads e.payload).map (readsEdge (effectId e.id) · "patch")) = g₃
    at hrestore hadds
  refine ⟨g₃, hdrop.bind (hmodify.bind (hrestore.bind (.pure _ _))),
    hadds.grows.wellFormed hwellFormed.1, h.effect_unique, fun n hn => ?_, fun d hd => ?_, fun d hd => ?_⟩
  · rcases hadds.grows.new_node n hn with hn | hn
    · exact (h.node n (hwellFormed.2 ▸ hn)).mono (fun _ hc => hc) fun _ hb => hb
    · exact hn
  · rcases hadds.grows.new_edge d hd with hd | hd
    · exact h.sound_dropped hdropped d hd
    · exact .inl hd
  · by_cases hother : d.source = effectId e.id ∧ d.type = .reads
    · exact hadds.triples d (h.mem_readsEdges he hd hother.1 hother.2)
    · exact hadds.grows.triples (h.complete_dropped hdropped hd hother)

theorem conditionId_effectNode (e : Effect) :
    (effectNode e).metadata.getText? "conditionId" = e.guardId := by
  obtain ⟨id, name, owner, timing, priority, payload, isActive, guardId, _⟩ := e
  cases guardId <;> rfl

theorem Shows.exists_of_mem_guardedBy (h : Shows linked r g) {condition effect : Bytes}
    (hmem : effect ∈ g.guardedBy condition) :
    ∃ e ∈ r.effects, effect = effectId e.id ∧ e.guardId = some condition := by
  simp only [guardedBy, List.mem_map, List.mem_filter, Bool.and_eq_true, decide_eq_true_eq] at hmem
  obtain ⟨n, ⟨hn, htype, hguard⟩, rfl⟩ := hmem
  obtain ⟨e, he, hid, hmetadata⟩ := (h.node n hn).of_effect htype
  rw [hmetadata, conditionId_effectNode] at hguard
  exact ⟨e, he, hid, hguard⟩

theorem Shows.mem_guardedBy (h : Shows linked r g) {condition : Bytes} {e : Effect}
    (he : e ∈ r.effects) : effectId e.id ∈ g.guardedBy condition ↔ e.guardId = some condition := by
  constructor
  · intro hmem
    obtain ⟨d, hd, hid, hguard⟩ := h.exists_of_mem_guardedBy hmem
    rwa [h.effect_unique e he d hd (effectId_inj.1 hid)]
  · intro hguard
    obtain ⟨n, hn, hid, htype, hmetadata⟩ := h.exists_effectNode he
    simp only [guardedBy, List.mem_map, List.mem_filter, Bool.and_eq_true, decide_eq_true_eq]
    exact ⟨n, ⟨hn, htype, by rw [hmetadata, conditionId_effectNode, hguard]⟩, hid⟩

theorem yields_replaceGuards (h : Shows linked r g) {effects : List Bytes} (reads : List Bytes)
    (heffects : ∀ effect ∈ effects, ∃ e ∈ r.effects, effect = effectId e.id) :
    ∃ g', Yields (ForIn.forIn effects PUnit.unit fun effect _ => do
        dropGuardReads effect
        modify fun g => addVariableEdges (readsEdge effect · "guard") reads g
        restorePatchReads effect
        return ForInStep.yield PUnit.unit) g PUnit.unit g' ∧
      Shows linked (r.withGuard effects reads) g' := by
  refine Yields.forIn (fun done g' => Shows linked (r.withGuard done reads) g') ?_ ?_
  · exact h.withGuarded fun e _ => if_neg List.not_mem_nil
  · intro done effect rest g₁ heq hdone
    obtain ⟨e, he, rfl⟩ := heffects effect (by simp [heq])
    obtain ⟨g', hyields, hshows⟩ := yields_replaceGuardReads hdone he reads
    refine ⟨g', hyields, hshows.withGuarded fun d _ => ?_⟩
    simp only [Content.guarded_withGuard, List.mem_append]
    by_cases hnow : effectId d.id ∈ [effectId e.id] <;> simp [hnow]

/-! ### Updates -/

/-- The content with a condition in the place of the one with its id. -/
def Content.update (r : Content) (c : Condition) : Content where
  conditions :=
    if c.isActive then keepFirst usableCondition (·.id) (r.withoutCondition c.id).conditions c
    else (r.withoutCondition c.id).conditions
  effects := r.effects
  guarded e := if e.guardId = some c.id then activeReads c else r.guarded e

theorem yields_updateRest (c : Condition) (warnings : List BuildWarning)
    (h : Shows linked { r.update c with guarded := r.guarded } g) :
    ∃ g', Yields (do
        for effect in (← get).guardedBy c.id do
          dropGuardReads effect
          modify fun g => addVariableEdges (readsEdge effect · "guard") (activeReads c) g
          restorePatchReads effect
        refresh linked
        return warnings) g warnings g' ∧
      Current linked (r.update c) g' := by
  refine Yields.seq (P := (g = ·)) ⟨g, .get g, rfl⟩ ?_
  rintro _ rfl
  refine Yields.seq (yields_replaceGuards h (activeReads c) fun effect hmem => ?_) fun g₁ h₁ => ?_
  · obtain ⟨e, he, heq, -⟩ := h.exists_of_mem_guardedBy hmem
    exact ⟨e, he, heq⟩
  · have h₂ : Shows linked (r.update c) g₁ := by
      refine h₁.withGuarded fun e he => ?_
      simp only [Content.guarded_withGuard, h.mem_guardedBy he]
    obtain ⟨g₂, hrefresh, hcurrent, -⟩ := yields_refresh h₂
    exact ⟨g₂, hrefresh.bind (.pure _ _), hcurrent⟩

/-- Updating a condition succeeds, and the graph shows the updated content. -/
theorem yields_updateCondition (h : Shows linked r g) (c : Condition) :
    ∃ warnings g', Yields (updateCondition linked c) g warnings g' ∧ Current linked (r.update c) g' := by
  have hremoved := h.removeCondition c.id
  have hremove := Yields.modify (fun g => g.removeNode (conditionId c.id)) g
  generalize g.removeNode (conditionId c.id) = g₁ at hremoved hremove
  by_cases hactive : c.isActive
  · have hadded : Shows linked { r.update c with guarded := r.guarded } (addCondition [] c g₁).1 := by
      have hcontent : (r.withoutCondition c.id).addCondition c =
          { r.update c with guarded := r.guarded } := by
        simp [Content.update, Content.addCondition, Content.withoutCondition, hactive]
      exact hcontent ▸ hremoved.addCondition c
    obtain ⟨g₂, hrest, hcurrent⟩ := yields_updateRest c (addCondition [] c g₁).2 hadded
    have hadd : Yields
        (modifyGet fun g => ((addCondition [] c g).2, (addCondition [] c g).1)) g₁
        (addCondition [] c g₁).2 (addCondition [] c g₁).1 := rfl
    refine ⟨(addCondition [] c g₁).2, g₂, hremove.bind ?_, hcurrent⟩
    rw [if_pos hactive]
    exact hadd.bind hrest
  · have hcontent : r.withoutCondition c.id = { r.update c with guarded := r.guarded } := by
      simp [Content.update, Content.withoutCondition, hactive]
    obtain ⟨g₂, hrest, hcurrent⟩ := yields_updateRest c [] (hcontent ▸ hremoved)
    refine ⟨[], g₂, hremove.bind ?_, hcurrent⟩
    rw [if_neg hactive]
    exact (Yields.pure [] g₁).bind hrest

end CampaignRules.Graph
