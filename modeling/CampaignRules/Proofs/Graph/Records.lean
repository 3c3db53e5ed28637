import CampaignRules.Proofs.Graph.Rebuild

/-! A built graph against the records it is built from. A condition or an effect has a node if it is
the first active one with its id that can have one. From the node edges go to the variables that the
record reads and writes, and to no others; one edge comes to it from the entity that owns it. Nothing
else is in the graph but links between effects. -/

namespace CampaignRules.Graph

/-- The condition that has the node with an id: of the active ones that can have it, the first. It can
have one if it has an id, an entity type and an expression that is well-formed. -/
def conditionFor? (conditions : List Condition) (id : Bytes) : Option Condition :=
  conditions.find? fun c => c.isActive && (usableCondition c && c.id = id)

/-- The effect that has the node with an id: of the active ones that can have it, the first. It can
have one if it has an id, an owner with type and id, and a patch that is valid for that type. -/
def effectFor? (effects : List Effect) (id : Bytes) : Option Effect :=
  effects.find? fun e => e.isActive && (usableEffect e && e.id = id)

/-- The guard of an effect reads a variable. The guard is the last condition with the id that the
effect names, and it counts if it is active and its expression is well-formed. The empty id names no
guard. -/
def ReadByGuard (conditions : List Condition) (e : Effect) (name : Bytes) : Prop :=
  ∃ id c expr, e.guardId = some id ∧ id ≠ [] ∧
    conditions.reverse.find? (fun c => c.id = id) = some c ∧ c.isActive = true ∧
    Expr.ofJson c.expression = .ok expr ∧ name ∈ expr.reads

def isEntity (g : Graph) (id : Bytes) : Bool :=
  (g.node? id).any fun n => n.type = .entity

/-- The edges to a node that come from entities. -/
def ownerEdges (g : Graph) (id : Bytes) : List Edge :=
  (g.incoming id).filter fun e => g.isEntity e.source

/-- The graph says what the records say, and effects are linked only if links are wanted. -/
structure Tells (linked : Bool) (conditions : List Condition) (effects : List Effect) (g : Graph) :
    Prop where
  /-- one node for an id, one edge of a type between two nodes, and a node at both ends -/
  wellFormed : g.WellFormed
  condition (id : Bytes) :
    (g.node? (conditionId id)).map unmarked = (conditionFor? conditions id).map conditionNode
  condition_id : ∀ n ∈ g.nodes, n.type = .condition → ∃ id, n.id = conditionId id
  effect (id : Bytes) : (g.node? (effectId id)).map unmarked = (effectFor? effects id).map effectNode
  effect_id : ∀ n ∈ g.nodes, n.type = .effect → ∃ id, n.id = effectId id
  condition_reads {id : Bytes} {c : Condition} (hc : conditionFor? conditions id = some c) :
    ∃ expr, Expr.ofJson c.expression = .ok expr ∧ ∀ target,
      (conditionId id, target, .reads) ∈ g.triples ↔ ∃ name ∈ expr.reads, target = variableId name
  effect_reads {id : Bytes} {e : Effect} (he : effectFor? effects id = some e) (target : Bytes) :
    (effectId id, target, .reads) ∈ g.triples ↔
      ∃ name, (name ∈ Patch.reads e.payload ∨ ReadByGuard conditions e name) ∧
        target = variableId name
  effect_writes {id : Bytes} {e : Effect} (he : effectFor? effects id = some e) (target : Bytes) :
    (effectId id, target, .writes) ∈ g.triples ↔
      ∃ name ∈ Patch.writes e.payload, target = variableId name
  condition_owner {id : Bytes} {c : Condition} (hc : conditionFor? conditions id = some c) :
    g.ownerEdges (conditionId id) = [ownsEdge c.owner (conditionId id)]
  effect_owner {id : Bytes} {e : Effect} (he : effectFor? effects id = some e) :
    g.ownerEdges (effectId id) = [ownsEdge e.owner (effectId id)]
  reads_source : ∀ e ∈ g.edges, e.type = .reads →
    (∃ id c, conditionFor? conditions id = some c ∧ e.source = conditionId id) ∨
      ∃ id a, effectFor? effects id = some a ∧ e.source = effectId id
  writes_source : ∀ e ∈ g.edges, e.type = .writes →
    ∃ id a, effectFor? effects id = some a ∧ e.source = effectId id
  variable_used : ∀ n ∈ g.nodes, n.type = .variable →
    ∃ e ∈ g.edges, e.target = n.id ∧ (e.type = .reads ∨ e.type = .writes)
  entity_used : ∀ n ∈ g.nodes, n.type = .entity → ∃ e ∈ g.edges, e.source = n.id ∧ e.type = .dependsOn
  owned_or_linked : ∀ e ∈ g.edges, e.type = .dependsOn →
    e ∈ g.ownerEdges e.target ∨ linked = true ∧ g.isChainLink e = true

variable {linked : Bool} {r : Content} {g : Graph} {conditions : List Condition} {effects : List Effect}
  {id : Bytes}

/-- A search for a condition with an id that is not empty finds none if the id is empty. -/
theorem find?_named_eq_some_iff {c : Condition} {xs : List Condition} :
    xs.find? (fun d => !d.id.isEmpty && d.id = id) = some c ↔
      id ≠ [] ∧ xs.find? (fun d => d.id = id) = some c := by
  cases id with
  | nil =>
      refine ⟨fun hfound => ?_, fun h => absurd rfl h.1⟩
      have htest := List.find?_some hfound
      simp at htest
  | cons first rest =>
      have hsame : (fun d : Condition => !d.id.isEmpty && decide (d.id = first :: rest)) =
          fun d => decide (d.id = first :: rest) := by
        funext d
        by_cases hid : d.id = first :: rest
        · simp [hid]
        · simp [hid]
      rw [hsame]
      exact (and_iff_right (List.cons_ne_nil first rest)).symm

theorem mem_guardVariables_iff {e : Effect} {name : Bytes} :
    name ∈ Content.guardVariables conditions e ↔ ReadByGuard conditions e name := by
  constructor
  · intro hname
    cases hguard : e.guardId with
    | none =>
        rw [Content.guardVariables_of_forall_ne fun _ _ h => by rw [hguard] at h; cases h] at hname
        exact absurd hname List.not_mem_nil
    | some id =>
        cases hfound : conditions.reverse.find? (fun d => !d.id.isEmpty && d.id = id) with
        | none =>
            rw [Content.guardVariables, guardOf, hguard] at hname
            simp only [hfound] at hname
            exact absurd hname List.not_mem_nil
        | some c =>
            rw [Content.guardVariables_of_found hguard hfound, mem_activeReads] at hname
            obtain ⟨hactive, expr, hexpr, hread⟩ := hname
            obtain ⟨hnamed, hlast⟩ := find?_named_eq_some_iff.1 hfound
            exact ⟨id, c, expr, hguard, hnamed, hlast, hactive, hexpr, hread⟩
  · rintro ⟨id, c, expr, hguard, hnamed, hlast, hactive, hexpr, hread⟩
    rw [Content.guardVariables_of_found hguard (find?_named_eq_some_iff.2 ⟨hnamed, hlast⟩),
      mem_activeReads]
    exact ⟨hactive, expr, hexpr, hread⟩

namespace Content.Holds

variable {n : Node}

theorem of_variable (hn : r.Holds n) (htype : n.type = .variable) : ∃ name, n.id = variableId name := by
  cases hn with
  | ofVariable name mark => exact ⟨name, rfl⟩
  | ofEntity _ _ _ | ofCondition _ _ | ofEffect _ _ => cases htype

theorem of_entity (hn : r.Holds n) (htype : n.type = .entity) : ∃ ref, n.id = entityId ref := by
  cases hn with
  | ofEntity labels ref mark => exact ⟨ref, rfl⟩
  | ofVariable _ _ | ofCondition _ _ | ofEffect _ _ => cases htype

theorem entity_of_entityId (hn : r.Holds n) {ref : EntityRef} (hid : n.id = entityId ref) :
    n.type = .entity := by
  cases hn with
  | ofEntity _ _ _ => rfl
  | ofVariable name mark => exact absurd hid.symm (entityId_ne_variableId _ _)
  | ofCondition hc mark => exact absurd hid (conditionId_ne_entityId _ _)
  | ofEffect he mark => exact absurd hid (effectId_ne_entityId _ _)

end Content.Holds

namespace Shows

/-- The graph has under an id what the records have there. -/
theorem node?_map_unmarked {α : Type} {record : Option α} {nodeOf : α → Node} (h : Shows linked r g)
    (hnode : ∀ n, r.Holds n → n.id = id → ∃ x, record = some x ∧ unmarked n = nodeOf x)
    (hmem : ∀ x, record = some x → id ∈ g.ids) : (g.node? id).map unmarked = record.map nodeOf := by
  cases hfound : g.node? id with
  | some n =>
      obtain ⟨hn, hid⟩ := (node?_eq_some_iff h.wellFormed).1 hfound
      obtain ⟨x, hrecord, heq⟩ := hnode n (h.node n hn) hid
      rw [hrecord, Option.map_some, Option.map_some, heq]
  | none =>
      cases hrecord : record with
      | none => rfl
      | some x =>
          obtain ⟨n, hn, hid⟩ := List.mem_map.1 (hmem x hrecord)
          rw [(node?_eq_some_iff h.wellFormed).2 ⟨hn, hid⟩] at hfound
          cases hfound

theorem isEntity_iff (h : Shows linked r g) :
    g.isEntity id = true ↔ id ∈ g.ids ∧ ∃ ref, id = entityId ref := by
  constructor
  · intro hentity
    obtain ⟨n, hfound, htype⟩ := (Option.any_eq_true _ _).1 hentity
    obtain ⟨hn, rfl⟩ := (node?_eq_some_iff h.wellFormed).1 hfound
    exact ⟨List.mem_map_of_mem hn, (h.node n hn).of_entity (of_decide_eq_true htype)⟩
  · rintro ⟨hmem, ref, hid⟩
    obtain ⟨n, hn, rfl⟩ := List.mem_map.1 hmem
    rw [isEntity, (node?_eq_some_iff h.wellFormed).2 ⟨hn, rfl⟩]
    exact decide_eq_true ((h.node n hn).entity_of_entityId hid)

theorem mem_condition_reads (h : Shows linked r g)
    (hunique : ∀ a ∈ r.conditions, ∀ b ∈ r.conditions, a.id = b.id → a = b) {c : Condition}
    (hc : c ∈ r.conditions) {target : Bytes} :
    (conditionId c.id, target, .reads) ∈ g.triples ↔
      ∃ name ∈ conditionReads c, target = variableId name := by
  constructor
  · intro hmem
    obtain ⟨e, he, hsource, htarget, htype⟩ := mem_triples_iff.1 hmem
    rcases h.sound e he with hstates | ⟨-, _, -, _, -, -, -, hdepends⟩
    · cases hstates with
      | expression hd hname =>
          rw [hunique _ hd _ hc (conditionId_inj.1 hsource)] at hname
          exact ⟨_, hname, htarget.symm⟩
      | guard _ _ | patch _ _ => exact absurd hsource.symm (conditionId_ne_effectId _ _)
      | writes _ _ | ownsCondition _ | ownsEffect _ => cases htype
    · rw [hdepends] at htype
      cases htype
  · rintro ⟨name, hname, rfl⟩
    exact h.complete _ (.expression hc hname)

theorem source_of_reads (h : Shows linked r g) {e : Edge} (he : e ∈ g.edges) (htype : e.type = .reads) :
    (∃ c ∈ r.conditions, e.source = conditionId c.id) ∨ ∃ a ∈ r.effects, e.source = effectId a.id := by
  rcases h.sound e he with hstates | ⟨-, _, -, _, -, -, -, hdepends⟩
  · cases hstates with
    | expression hc _ => exact .inl ⟨_, hc, rfl⟩
    | guard ha _ | patch ha _ => exact .inr ⟨_, ha, rfl⟩
    | writes _ _ | ownsCondition _ | ownsEffect _ => cases htype
  · rw [hdepends] at htype
    cases htype

theorem source_of_writes (h : Shows linked r g) {e : Edge} (he : e ∈ g.edges)
    (htype : e.type = .writes) : ∃ a ∈ r.effects, e.source = effectId a.id := by
  rcases h.sound e he with hstates | ⟨-, a, ha, _, -, hsource, -⟩
  · cases hstates with
    | writes ha _ => exact ⟨_, ha, rfl⟩
    | expression _ _ | guard _ _ | patch _ _ | ownsCondition _ | ownsEffect _ => cases htype
  · exact ⟨a, ha, hsource⟩

/-- Edges from entities are those to the records that they own. -/
theorem owns_of_isEntity (h : Shows linked r g) {e : Edge} (he : e ∈ g.edges)
    (hsource : g.isEntity e.source = true) :
    (∃ c ∈ r.conditions, e = ownsEdge c.owner (conditionId c.id)) ∨
      ∃ a ∈ r.effects, e = ownsEdge a.owner (effectId a.id) := by
  obtain ⟨-, ref, href⟩ := h.isEntity_iff.1 hsource
  rcases h.sound e he with hstates | ⟨-, a, -, _, -, hchained, -⟩
  · cases hstates with
    | expression _ _ => exact absurd href (conditionId_ne_entityId _ _)
    | guard _ _ | patch _ _ | writes _ _ => exact absurd href (effectId_ne_entityId _ _)
    | ownsCondition hc => exact .inl ⟨_, hc, rfl⟩
    | ownsEffect ha => exact .inr ⟨_, ha, rfl⟩
  · exact absurd (hchained.symm.trans href) (effectId_ne_entityId _ _)

theorem owned_or_linked (h : Shows linked r g) {e : Edge} (he : e ∈ g.edges)
    (htype : e.type = .dependsOn) :
    e ∈ g.ownerEdges e.target ∨ linked = true ∧ g.isChainLink e = true := by
  have howner : (∃ ref, e.source = entityId ref) → e ∈ g.ownerEdges e.target := fun hsource =>
    List.mem_filter.2 ⟨List.mem_filter.2 ⟨he, decide_eq_true rfl⟩,
      h.isEntity_iff.2 ⟨h.wellFormed.source_mem e he, hsource⟩⟩
  rcases h.sound e he with hstates | ⟨hlinked, hchains⟩
  · cases hstates with
    | ownsCondition _ | ownsEffect _ => exact .inl (howner ⟨_, rfl⟩)
    | expression _ _ | guard _ _ | patch _ _ | writes _ _ => cases htype
  · exact .inr ⟨hlinked, h.isChainLink_iff.2 hchains⟩

/-- A record that no other record shares its id with has one owner. -/
theorem ownerEdges_eq (h : Shows linked r g) {owner : EntityRef} (hstates : r.States (ownsEdge owner id))
    (honly : ∀ e ∈ g.edges, g.isEntity e.source = true → e.target = id → e = ownsEdge owner id) :
    g.ownerEdges id = [ownsEdge owner id] := by
  have hall : ∀ e ∈ g.ownerEdges id, e = ownsEdge owner id := by
    intro e he
    obtain ⟨hincoming, hsource⟩ := List.mem_filter.1 he
    obtain ⟨hmem, htarget⟩ := List.mem_filter.1 hincoming
    exact honly e hmem hsource (of_decide_eq_true htarget)
  have hmem : ownsEdge owner id ∈ g.ownerEdges id := by
    obtain ⟨e, he, hsource, htarget, htype⟩ := mem_triples_iff.1 (h.complete _ hstates)
    have hentity : g.isEntity e.source = true :=
      h.isEntity_iff.2 ⟨h.wellFormed.source_mem e he, owner, hsource⟩
    rw [← honly e he hentity htarget]
    exact List.mem_filter.2 ⟨List.mem_filter.2 ⟨he, decide_eq_true htarget⟩, hentity⟩
  have hnodup : (g.ownerEdges id).Nodup :=
    ((h.wellFormed.triples_nodup.of_map _).filter _).filter _
  refine List.perm_singleton.1 ((List.perm_ext_iff_of_nodup hnodup (List.nodup_singleton _)).2 fun e => ?_)
  rw [List.mem_singleton]
  exact ⟨hall e, fun heq => heq ▸ hmem⟩

theorem ownerEdges_condition (h : Shows linked r g)
    (hunique : ∀ a ∈ r.conditions, ∀ b ∈ r.conditions, a.id = b.id → a = b) {c : Condition}
    (hc : c ∈ r.conditions) :
    g.ownerEdges (conditionId c.id) = [ownsEdge c.owner (conditionId c.id)] := by
  refine h.ownerEdges_eq (.ownsCondition hc) fun e he hsource htarget => ?_
  rcases h.owns_of_isEntity he hsource with ⟨d, hd, rfl⟩ | ⟨a, -, rfl⟩
  · rw [hunique d hd c hc (conditionId_inj.1 htarget)]
  · exact absurd htarget.symm (conditionId_ne_effectId _ _)

theorem ownerEdges_effect (h : Shows linked r g) {a : Effect} (ha : a ∈ r.effects) :
    g.ownerEdges (effectId a.id) = [ownsEdge a.owner (effectId a.id)] := by
  refine h.ownerEdges_eq (.ownsEffect ha) fun e he hsource htarget => ?_
  rcases h.owns_of_isEntity he hsource with ⟨c, -, rfl⟩ | ⟨b, hb, rfl⟩
  · exact absurd htarget (conditionId_ne_effectId _ _)
  · rw [h.effect_unique b hb a ha (effectId_inj.1 htarget)]

/-- A variable with an edge is read or written. -/
theorem variable_used (h : Shows linked r g) (hattached : Attached g) {n : Node} (hn : n ∈ g.nodes)
    (htype : n.type = .variable) :
    ∃ e ∈ g.edges, e.target = n.id ∧ (e.type = .reads ∨ e.type = .writes) := by
  obtain ⟨name, hid⟩ := (h.node n hn).of_variable htype
  obtain ⟨e, he, hat⟩ := hattached n hn (.inl htype)
  rw [hid] at hat ⊢
  refine ⟨e, he, ?_⟩
  rcases h.sound e he with hstates | ⟨-, a, -, b, -, hsource, htarget, -⟩
  · cases hstates with
    | expression _ _ => exact ⟨hat.resolve_left (conditionId_ne_variableId _ _), .inl rfl⟩
    | guard _ _ | patch _ _ => exact ⟨hat.resolve_left (effectId_ne_variableId _ _), .inl rfl⟩
    | writes _ _ => exact ⟨hat.resolve_left (effectId_ne_variableId _ _), .inr rfl⟩
    | ownsCondition _ =>
        exact (hat.elim (entityId_ne_variableId _ _) (conditionId_ne_variableId _ _)).elim
    | ownsEffect _ => exact (hat.elim (entityId_ne_variableId _ _) (effectId_ne_variableId _ _)).elim
  · rw [hsource, htarget] at hat
    exact (hat.elim (effectId_ne_variableId _ _) (effectId_ne_variableId _ _)).elim

/-- An entity with an edge owns a record. -/
theorem entity_used (h : Shows linked r g) (hattached : Attached g) {n : Node} (hn : n ∈ g.nodes)
    (htype : n.type = .entity) : ∃ e ∈ g.edges, e.source = n.id ∧ e.type = .dependsOn := by
  obtain ⟨ref, hid⟩ := (h.node n hn).of_entity htype
  obtain ⟨e, he, hat⟩ := hattached n hn (.inr htype)
  rw [hid] at hat ⊢
  have hsource : e.source = entityId ref := by
    refine hat.resolve_right fun htarget => ?_
    rcases h.sound e he with hstates | ⟨-, _, -, b, -, -, hchained, -⟩
    · cases hstates with
      | expression _ _ | guard _ _ | patch _ _ | writes _ _ =>
          exact entityId_ne_variableId _ _ htarget.symm
      | ownsCondition _ => exact conditionId_ne_entityId _ _ htarget
      | ownsEffect _ => exact effectId_ne_entityId _ _ htarget
    · exact effectId_ne_entityId _ _ (hchained.symm.trans htarget)
  have hentity : g.isEntity e.source = true :=
    h.isEntity_iff.2 ⟨h.wellFormed.source_mem e he, ref, hsource⟩
  rcases h.owns_of_isEntity he hentity with ⟨c, -, rfl⟩ | ⟨a, -, rfl⟩
  · exact ⟨_, he, hsource, rfl⟩
  · exact ⟨_, he, hsource, rfl⟩

end Shows

/-! ### Built graphs -/

theorem conditionReads_eq {c : Condition} (husable : usableCondition c) :
    ∃ expr, Expr.ofJson c.expression = .ok expr ∧ conditionReads c = expr.reads := by
  have hreads := expressionReads_eq husable
  rw [expressionReads] at hreads
  cases hexpr : Expr.ofJson c.expression with
  | error e => rw [hexpr] at hreads; cases hreads
  | ok expr =>
      rw [hexpr] at hreads
      exact ⟨expr, rfl, (Except.ok.inj hreads).symm⟩

/-- A built graph says what the records say that it is built from. -/
theorem built_graph_tells (linkChains : Bool) (conditions : List Condition) (effects : List Effect)
    (entities : List Entity) :
    Tells linkChains conditions effects
      (GraphBuild.ofRecords linkChains conditions effects entities).graph := by
  let g := (GraphBuild.ofRecords linkChains conditions effects entities).graph
  let r := Content.ofRecords conditions effects
  have hshows : Shows linkChains r g := (current_ofRecords conditions effects entities).shows
  have hattached : Attached g := attached_ofRecords conditions effects entities
  have hcondition : ∀ {id c}, conditionFor? conditions id = some c ↔ c ∈ r.conditions ∧ c.id = id :=
    find?_eq_some_iff_kept
  have heffect : ∀ {id e}, effectFor? effects id = some e ↔ e ∈ r.effects ∧ e.id = id :=
    find?_eq_some_iff_kept
  have hunique : ∀ a ∈ r.conditions, ∀ b ∈ r.conditions, a.id = b.id → a = b := fun a ha b hb heq =>
    Option.some.inj ((hcondition.2 ⟨ha, heq⟩).symm.trans (hcondition.2 ⟨hb, rfl⟩))
  constructor
  case wellFormed => exact hshows.wellFormed
  case condition =>
    intro id
    refine hshows.node?_map_unmarked (fun n hn hid => ?_) fun c hc =>
      hshows.conditionId_mem.2 ⟨c, hcondition.1 hc⟩
    obtain ⟨c, hc, heq, hsame⟩ := hn.unmarked_of_conditionId hid
    exact ⟨c, hcondition.2 ⟨hc, heq⟩, hsame⟩
  case condition_id =>
    intro n hn htype
    obtain ⟨c, -, hid⟩ := (hshows.node n hn).of_condition htype
    exact ⟨c.id, hid⟩
  case effect =>
    intro id
    refine hshows.node?_map_unmarked (fun n hn hid => ?_) fun e he =>
      hshows.effectId_mem.2 ⟨e, heffect.1 he⟩
    obtain ⟨e, he, heq, hsame⟩ := hn.unmarked_of_effectId hid
    exact ⟨e, heffect.2 ⟨he, heq⟩, hsame⟩
  case effect_id =>
    intro n hn htype
    obtain ⟨e, -, hid, -⟩ := (hshows.node n hn).of_effect htype
    exact ⟨e.id, hid⟩
  case condition_reads =>
    intro id c hc
    have husable : usableCondition c := by
      have htest := List.find?_some hc
      simp only [Bool.and_eq_true] at htest
      exact htest.2.1
    obtain ⟨hmem, rfl⟩ := hcondition.1 hc
    obtain ⟨expr, hexpr, hreads⟩ := conditionReads_eq husable
    exact ⟨expr, hexpr, fun target => hreads ▸ hshows.mem_condition_reads hunique hmem⟩
  case effect_reads =>
    intro id e he target
    obtain ⟨hmem, rfl⟩ := heffect.1 he
    rw [hshows.mem_reads hmem]
    refine exists_congr fun name => ?_
    rw [and_comm, or_comm]
    exact and_congr_left' (or_congr_right mem_guardVariables_iff)
  case effect_writes =>
    intro id e he target
    obtain ⟨hmem, rfl⟩ := heffect.1 he
    rw [hshows.mem_writes hmem]
    exact exists_congr fun name => and_comm
  case condition_owner =>
    intro id c hc
    obtain ⟨hmem, rfl⟩ := hcondition.1 hc
    exact hshows.ownerEdges_condition hunique hmem
  case effect_owner =>
    intro id e he
    obtain ⟨hmem, rfl⟩ := heffect.1 he
    exact hshows.ownerEdges_effect hmem
  case reads_source =>
    intro e he htype
    rcases hshows.source_of_reads he htype with ⟨c, hc, hsource⟩ | ⟨a, ha, hsource⟩
    · exact .inl ⟨c.id, c, hcondition.2 ⟨hc, rfl⟩, hsource⟩
    · exact .inr ⟨a.id, a, heffect.2 ⟨ha, rfl⟩, hsource⟩
  case writes_source =>
    intro e he htype
    obtain ⟨a, ha, hsource⟩ := hshows.source_of_writes he htype
    exact ⟨a.id, a, heffect.2 ⟨ha, rfl⟩, hsource⟩
  case variable_used => exact fun n hn => hshows.variable_used hattached hn
  case entity_used => exact fun n hn => hshows.entity_used hattached hn
  case owned_or_linked => exact fun e he => hshows.owned_or_linked he

/-- A condition with the empty id is no guard, though an effect may name it. -/
theorem emptyId_no_guard :
    let rich : Condition := ⟨"", "SETTLEMENT", some "s1", [], .object [("var", "gold")], [], 0, true,
      1, [], "main"⟩
    let tax : Effect := ⟨"tax", "tax", ⟨"SETTLEMENT", "s1"⟩, .pre, 0,
      .array [.object [("op", "add"), ("path", "/variables/food"), ("value", .unsigned 1)]],
      true, some "", [], [], "main"⟩
    ∀ linkChains,
      tax.guardId = some rich.id ∧ rich.isActive = true ∧
        (∃ expr, Expr.ofJson rich.expression = .ok expr ∧ expr.reads = [("gold" : Bytes)]) ∧
        effectId tax.id ∈ (GraphBuild.ofRecords linkChains [rich] [tax] []).graph.idsOf .effect ∧
        (effectId tax.id, variableId "gold", .reads) ∉
          (GraphBuild.ofRecords linkChains [rich] [tax] []).graph.triples := by
  intro rich tax linkChains
  refine ⟨rfl, rfl, ⟨.var "gold" none, rfl, rfl⟩, ?_, ?_⟩
  · cases linkChains <;> decide +kernel
  · cases linkChains <;> decide +kernel

end CampaignRules.Graph
