import CampaignRules.Proofs.Graph.Growth

/-! What a graph of records says. Its content are the conditions and effects that have nodes, and the
variables that the guards of the effects read; the content states which edges there are, apart from
the links between effects, which are derived. A graph shows a content if its nodes are those of the
content, up to variables and entities without edges, and its edges those that the content states. -/

namespace CampaignRules.Graph

/-- The variables that the expression of a condition reads, none if it is malformed. -/
def conditionReads (c : Condition) : List Bytes :=
  (expressionReads c.expression).toOption.getD []

/-- The condition can have a node. -/
def usableCondition (c : Condition) : Bool :=
  !(c.id.isEmpty || c.entityType.isEmpty) && (expressionReads c.expression).toOption.isSome

/-- The effect can have a node. -/
def usableEffect (e : Effect) : Bool :=
  !(e.id.isEmpty || e.owner.type.isEmpty || e.owner.id.isEmpty) &&
    (Patch.check e.payload e.owner.type).problems.isEmpty

/-- Keeps a record that can be used, unless its id is taken. -/
def keepFirst {α : Type} (usable : α → Bool) (id : α → Bytes) (kept : List α) (x : α) : List α :=
  if usable x && !kept.any (id · = id x) then kept ++ [x] else kept

theorem keepFirst_of_free {α : Type} {usable : α → Bool} {key : α → Bytes} {kept : List α} {x : α}
    (hfree : ∀ y ∈ kept, key y ≠ key x) :
    keepFirst usable key kept x = if usable x then kept ++ [x] else kept := by
  have hany : kept.any (key · = key x) = false := by simpa using hfree
  rw [keepFirst, hany, Bool.not_false, Bool.and_true]

theorem keepFirst_of_taken {α : Type} {usable : α → Bool} {key : α → Bytes} {kept : List α} {x y : α}
    (hy : y ∈ kept) (hkey : key y = key x) : keepFirst usable key kept x = kept := by
  have hany : kept.any (key · = key x) = true := List.any_eq_true.2 ⟨y, hy, decide_eq_true hkey⟩
  rw [keepFirst, hany, Bool.not_true, Bool.and_false, if_neg Bool.false_ne_true]

theorem keepFirst_of_not_usable {α : Type} {usable : α → Bool} {key : α → Bytes} {kept : List α}
    {x : α} (husable : ¬usable x) : keepFirst usable key kept x = kept := by
  rw [keepFirst, Bool.eq_false_iff.2 husable, Bool.false_and, if_neg Bool.false_ne_true]

theorem metadataText_readsEdge (source name : Bytes) (reason : String) :
    metadataText "variable" (readsEdge source name reason).metadata = .ok name ∧
      metadataText "source" (readsEdge source name reason).metadata = .ok reason :=
  ⟨rfl, rfl⟩

/-- The node apart from its mark. -/
def unmarked (n : Node) : Node :=
  { n with inCycle := false }

/-- The edge is there because of a guard. -/
def GuardRead (e : Edge) : Prop :=
  e.type = .reads ∧ metadataText "source" e.metadata = .ok "guard"

/-- The conditions and effects that have nodes, and the variables that guards read. -/
structure Content where
  conditions : List Condition
  effects : List Effect
  guarded : Effect → List Bytes

namespace Content

def addCondition (r : Content) (c : Condition) : Content :=
  { r with conditions := keepFirst usableCondition (·.id) r.conditions c }

def addEffect (r : Content) (e : Effect) : Content :=
  { r with effects := keepFirst usableEffect (·.id) r.effects e }

/-- The variables that the guard of an effect reads, if it is among the conditions. -/
def guardVariables (conditions : List Condition) (e : Effect) : List Bytes :=
  (guardReads e (guardOf conditions e).1).1

/-- The content of records. -/
def ofRecords (conditions : List Condition) (effects : List Effect) : Content where
  conditions := (conditions.filter (·.isActive)).foldl (keepFirst usableCondition (·.id)) []
  effects := (effects.filter (·.isActive)).foldl (keepFirst usableEffect (·.id)) []
  guarded := guardVariables conditions

/-- The nodes that a graph of the content may have, marked as on a cycle or not. -/
inductive Holds (r : Content) : Node → Prop where
  | ofVariable (name : Bytes) (mark : Bool) : r.Holds { variableNode name with inCycle := mark }
  | ofEntity (labels : Labels) (ref : EntityRef) (mark : Bool) :
      r.Holds { entityNode labels ref with inCycle := mark }
  | ofCondition {c : Condition} (hc : c ∈ r.conditions) (mark : Bool) :
      r.Holds { conditionNode c with inCycle := mark }
  | ofEffect {e : Effect} (he : e ∈ r.effects) (mark : Bool) :
      r.Holds { effectNode e with inCycle := mark }

/-- The edges that the content calls for. -/
inductive States (r : Content) : Edge → Prop where
  | expression {c : Condition} {name : Bytes} (hc : c ∈ r.conditions)
      (hname : name ∈ conditionReads c) :
      r.States (readsEdge (conditionId c.id) name "expression")
  | guard {e : Effect} {name : Bytes} (he : e ∈ r.effects) (hname : name ∈ r.guarded e) :
      r.States (readsEdge (effectId e.id) name "guard")
  | patch {e : Effect} {name : Bytes} (he : e ∈ r.effects) (hname : name ∈ Patch.reads e.payload) :
      r.States (readsEdge (effectId e.id) name "patch")
  | writes {e : Effect} {name : Bytes} (he : e ∈ r.effects) (hname : name ∈ Patch.writes e.payload) :
      r.States (writesEdge (effectId e.id) name)
  | ownsCondition {c : Condition} (hc : c ∈ r.conditions) :
      r.States (ownsEdge c.owner (conditionId c.id))
  | ownsEffect {e : Effect} (he : e ∈ r.effects) : r.States (ownsEdge e.owner (effectId e.id))

/-- The edges that a condition calls for. -/
def conditionEdges (c : Condition) : List Edge :=
  (conditionReads c).map (readsEdge (conditionId c.id) · "expression") ++
    [ownsEdge c.owner (conditionId c.id)]

/-- The edges that an effect calls for. -/
def effectEdges (r : Content) (e : Effect) : List Edge :=
  (r.guarded e).map (readsEdge (effectId e.id) · "guard") ++
    (Patch.reads e.payload).map (readsEdge (effectId e.id) · "patch") ++
    (Patch.writes e.payload).map (writesEdge (effectId e.id)) ++
    [ownsEdge e.owner (effectId e.id)]

/-- The edges that may have been derived: from an effect to one that it depends on. -/
def Chains (r : Content) (e : Edge) : Prop :=
  ∃ a ∈ r.effects, ∃ b ∈ r.effects,
    e.source = effectId a.id ∧ e.target = effectId b.id ∧ e.type = .dependsOn

/-- All that the first content says the second one says too. -/
structure Le (r r' : Content) : Prop where
  conditions : ∀ c ∈ r.conditions, c ∈ r'.conditions
  effects : ∀ e ∈ r.effects, e ∈ r'.effects
  guarded : ∀ e ∈ r.effects, r'.guarded e = r.guarded e

variable {r r' : Content} {n : Node} {e : Edge}

theorem Holds.mono (h : r.Holds n) (hconditions : ∀ c ∈ r.conditions, c ∈ r'.conditions)
    (heffects : ∀ e ∈ r.effects, e ∈ r'.effects) : r'.Holds n := by
  cases h with
  | ofVariable name mark => exact .ofVariable name mark
  | ofEntity labels ref mark => exact .ofEntity labels ref mark
  | ofCondition hc mark => exact .ofCondition (hconditions _ hc) mark
  | ofEffect he mark => exact .ofEffect (heffects _ he) mark

/-- The id of a node tells whether it is of a condition, and of which. Apart from its mark the node is
what the record makes it. -/
theorem Holds.unmarked_of_conditionId (hn : r.Holds n) {id : Bytes} (hid : n.id = conditionId id) :
    ∃ c ∈ r.conditions, c.id = id ∧ unmarked n = conditionNode c := by
  cases hn with
  | ofVariable name mark => exact absurd hid.symm (conditionId_ne_variableId _ _)
  | ofEntity labels ref mark => exact absurd hid.symm (conditionId_ne_entityId _ _)
  | ofCondition hc mark => exact ⟨_, hc, conditionId_inj.1 hid, rfl⟩
  | ofEffect he mark => exact absurd hid.symm (conditionId_ne_effectId _ _)

/-- So it does for effects. -/
theorem Holds.unmarked_of_effectId (hn : r.Holds n) {id : Bytes} (hid : n.id = effectId id) :
    ∃ e ∈ r.effects, e.id = id ∧ unmarked n = effectNode e := by
  cases hn with
  | ofVariable name mark => exact absurd hid.symm (effectId_ne_variableId _ _)
  | ofEntity labels ref mark => exact absurd hid.symm (effectId_ne_entityId _ _)
  | ofCondition hc mark => exact absurd hid (conditionId_ne_effectId _ _)
  | ofEffect he mark => exact ⟨_, he, effectId_inj.1 hid, rfl⟩

theorem Holds.of_conditionId (hn : r.Holds n) {id : Bytes} (hid : n.id = conditionId id) :
    ∃ c ∈ r.conditions, c.id = id ∧ n.type = .condition := by
  obtain ⟨c, hc, heq, hsame⟩ := hn.unmarked_of_conditionId hid
  exact ⟨c, hc, heq, congrArg Node.type hsame⟩

theorem Holds.of_effectId (hn : r.Holds n) {id : Bytes} (hid : n.id = effectId id) :
    ∃ e ∈ r.effects, e.id = id ∧ n.type = .effect ∧ n.metadata = (effectNode e).metadata := by
  obtain ⟨e, he, heq, hsame⟩ := hn.unmarked_of_effectId hid
  have hmetadata : (unmarked n).metadata = (effectNode e).metadata := congrArg Node.metadata hsame
  exact ⟨e, he, heq, congrArg Node.type hsame, hmetadata⟩

theorem Holds.of_condition (hn : r.Holds n) (htype : n.type = .condition) :
    ∃ c ∈ r.conditions, n.id = conditionId c.id := by
  cases hn with
  | ofCondition hc mark => exact ⟨_, hc, rfl⟩
  | ofVariable _ _ | ofEntity _ _ _ | ofEffect _ _ => cases htype

theorem Holds.of_effect (hn : r.Holds n) (htype : n.type = .effect) :
    ∃ e ∈ r.effects, n.id = effectId e.id ∧ n.metadata = (effectNode e).metadata := by
  cases hn with
  | ofEffect he mark => exact ⟨_, he, rfl, rfl⟩
  | ofVariable _ _ | ofEntity _ _ _ | ofCondition _ _ => cases htype

/-- An edge is stated by another content with the same records if that content agrees on the guard
that the edge may be there for. -/
theorem States.transfer (h : r.States e) (hconditions : ∀ c ∈ r.conditions, c ∈ r'.conditions)
    (heffects : ∀ e ∈ r.effects, e ∈ r'.effects)
    (hguarded : ∀ a ∈ r.effects, e.source = effectId a.id → GuardRead e → r'.guarded a = r.guarded a) :
    r'.States e := by
  cases h with
  | expression hc hname => exact .expression (hconditions _ hc) hname
  | guard he hname =>
      refine .guard (heffects _ he) ?_
      rwa [hguarded _ he rfl ⟨rfl, (metadataText_readsEdge _ _ _).2⟩]
  | patch he hname => exact .patch (heffects _ he) hname
  | writes he hname => exact .writes (heffects _ he) hname
  | ownsCondition hc => exact .ownsCondition (hconditions _ hc)
  | ownsEffect he => exact .ownsEffect (heffects _ he)

theorem states_iff :
    r.States e ↔ (∃ c ∈ r.conditions, e ∈ conditionEdges c) ∨ ∃ a ∈ r.effects, e ∈ r.effectEdges a := by
  simp only [conditionEdges, effectEdges, List.mem_append, List.mem_map, List.mem_singleton]
  constructor
  · intro h
    cases h with
    | expression hc hname => exact .inl ⟨_, hc, .inl ⟨_, hname, rfl⟩⟩
    | ownsCondition hc => exact .inl ⟨_, hc, .inr rfl⟩
    | guard he hname => exact .inr ⟨_, he, .inl (.inl (.inl ⟨_, hname, rfl⟩))⟩
    | patch he hname => exact .inr ⟨_, he, .inl (.inl (.inr ⟨_, hname, rfl⟩))⟩
    | writes he hname => exact .inr ⟨_, he, .inl (.inr ⟨_, hname, rfl⟩)⟩
    | ownsEffect he => exact .inr ⟨_, he, .inr rfl⟩
  · rintro (⟨c, hc, ⟨name, hname, rfl⟩ | rfl⟩ |
      ⟨a, ha, ((⟨name, hname, rfl⟩ | ⟨name, hname, rfl⟩) | ⟨name, hname, rfl⟩) | rfl⟩)
    · exact .expression hc hname
    · exact .ownsCondition hc
    · exact .guard ha hname
    · exact .patch ha hname
    · exact .writes ha hname
    · exact .ownsEffect ha

theorem States.mono (h : r.States e) (hle : r.Le r') : r'.States e :=
  h.transfer hle.conditions hle.effects fun a ha _ _ => hle.guarded a ha

theorem Chains.mono (h : r.Chains e) (heffects : ∀ e ∈ r.effects, e ∈ r'.effects) :
    r'.Chains e := by
  obtain ⟨a, ha, b, hb, hends⟩ := h
  exact ⟨a, heffects a ha, b, heffects b hb, hends⟩

end Content

/-- The graph says what the content says. Effects may be linked, if links are wanted. -/
structure Shows (linked : Bool) (r : Content) (g : Graph) : Prop where
  wellFormed : g.WellFormed
  effect_unique : ∀ a ∈ r.effects, ∀ b ∈ r.effects, a.id = b.id → a = b
  node : ∀ n ∈ g.nodes, r.Holds n
  sound : ∀ e ∈ g.edges, r.States e ∨ linked = true ∧ r.Chains e
  complete : ∀ e, r.States e → e.triple ∈ g.triples

variable {linked : Bool} {r r' : Content} {g g' g'' : Graph} {labels : Labels} {id : Bytes}

namespace Shows

theorem edge_of_states (h : Shows linked r g) {e : Edge} (he : r.States e) :
    e.source ∈ g.ids ∧ e.target ∈ g.ids :=
  h.wellFormed.mem_ids_of_mem_triples (h.complete e he)

theorem conditionId_mem (h : Shows linked r g) :
    conditionId id ∈ g.ids ↔ ∃ c ∈ r.conditions, c.id = id := by
  constructor
  · intro hid
    obtain ⟨n, hn, heq⟩ := List.mem_map.1 hid
    obtain ⟨c, hc, rfl, -⟩ := (h.node n hn).of_conditionId heq
    exact ⟨c, hc, rfl⟩
  · rintro ⟨c, hc, rfl⟩
    exact (h.edge_of_states (.ownsCondition hc)).2

theorem effectId_mem (h : Shows linked r g) :
    effectId id ∈ g.ids ↔ ∃ e ∈ r.effects, e.id = id := by
  constructor
  · intro hid
    obtain ⟨n, hn, heq⟩ := List.mem_map.1 hid
    obtain ⟨e, he, rfl, -⟩ := (h.node n hn).of_effectId heq
    exact ⟨e, he, rfl⟩
  · rintro ⟨e, he, rfl⟩
    exact (h.edge_of_states (.ownsEffect he)).2

/-- A graph that grows by what a larger content calls for shows the larger content. -/
theorem grow (h : Shows linked r g) (hle : r.Le r') (hgrows : Grows r'.Holds r'.States g g')
    (hunique : ∀ a ∈ r'.effects, ∀ b ∈ r'.effects, a.id = b.id → a = b)
    (hcomplete : ∀ e, r'.States e → r.States e ∨ e.triple ∈ g'.triples) : Shows linked r' g' where
  wellFormed := hgrows.wellFormed h.wellFormed
  effect_unique := hunique
  node n hn := (hgrows.new_node n hn).elim (fun hn => (h.node n hn).mono hle.conditions hle.effects) id
  sound e he := (hgrows.new_edge e he).elim
    (fun he => (h.sound e he).imp (·.mono hle) (·.imp_right (·.mono hle.effects))) .inl
  complete e he := (hcomplete e he).elim (fun he => hgrows.triples (h.complete e he)) id

theorem empty (guarded : Effect → List Bytes) : Shows linked ⟨[], [], guarded⟩ .empty where
  wellFormed := .empty
  effect_unique a ha := absurd ha List.not_mem_nil
  node n hn := absurd hn List.not_mem_nil
  sound e he := absurd he List.not_mem_nil
  complete e he := by
    rcases Content.states_iff.1 he with ⟨c, hc, -⟩ | ⟨a, ha, -⟩
    · exact absurd hc List.not_mem_nil
    · exact absurd ha List.not_mem_nil

end Shows

/-- Adds the edges of a condition whose node is there, with the nodes at their other ends. -/
def addConditionEdges (labels : Labels) (c : Condition) (g : Graph) : Graph :=
  addOwner labels c.owner (conditionId c.id)
    (addVariableEdges (readsEdge (conditionId c.id) · "expression") (conditionReads c) g)

/-- Adds the edges of an effect whose node is there, with the nodes at their other ends. -/
def addEffectEdges (labels : Labels) (e : Effect) (guardReads : List Bytes) (g : Graph) : Graph :=
  addOwner labels e.owner (effectId e.id)
    (addVariableEdges (writesEdge (effectId e.id)) (Patch.writes e.payload)
      (addVariableEdges (readsEdge (effectId e.id) · "patch") (Patch.reads e.payload)
        (addVariableEdges (readsEdge (effectId e.id) · "guard") guardReads g)))

theorem expressionReads_eq {c : Condition} (husable : usableCondition c) :
    expressionReads c.expression = .ok (conditionReads c) := by
  simp only [usableCondition, Bool.and_eq_true] at husable
  cases hreads : expressionReads c.expression with
  | error e => simp [hreads, Except.toOption] at husable
  | ok reads => simp [conditionReads, hreads, Except.toOption]

theorem addCondition_of_not_usable {c : Condition} (husable : ¬usableCondition c) :
    (addCondition labels c g).1 = g := by
  rw [addCondition]
  split
  · rfl
  · rename_i hnamed
    cases hreads : expressionReads c.expression with
    | error e => rfl
    | ok reads => simp_all [usableCondition, Except.toOption]

theorem addCondition_of_mem {c : Condition} (hid : conditionId c.id ∈ g.ids) :
    (addCondition labels c g).1 = g := by
  rw [addCondition, addNode?_of_mem (n := conditionNode c) hid]
  split
  · rfl
  · split <;> rfl

theorem addCondition_of_usable {c : Condition} (husable : usableCondition c)
    (hid : conditionId c.id ∉ g.ids) :
    (addCondition labels c g).1 = addConditionEdges labels c (g.addNode (conditionNode c)) := by
  have hnamed : (c.id.isEmpty || c.entityType.isEmpty) = false := by
    simp only [usableCondition, Bool.and_eq_true, Bool.not_eq_true'] at husable
    exact husable.1
  rw [addCondition, hnamed, expressionReads_eq husable,
    addNode?_of_not_mem (n := conditionNode c) hid]
  rfl

/-- The graph grows by what the content calls for, the given edges among it. -/
structure Adds (r : Content) (edges : List Edge) (g g' : Graph) : Prop where
  grows : Grows r.Holds r.States g g'
  triples : ∀ e ∈ edges, e.triple ∈ g'.triples

theorem Adds.trans {edges edges' : List Edge} (h : Adds r edges g g') (h' : Adds r edges' g' g'') :
    Adds r (edges ++ edges') g g'' where
  grows := h.grows.trans h'.grows
  triples := List.forall_mem_append.2 ⟨fun e he => h'.grows.triples (h.triples e he), h'.triples⟩

theorem adds_variableEdges (edge : Bytes → Edge) {names : List Bytes} {source : Bytes}
    (hsource : source ∈ g.ids)
    (hends : ∀ name, (edge name).source = source ∧ (edge name).target = variableId name)
    (hedge : ∀ name ∈ names, r.States (edge name)) :
    Adds r (names.map edge) g (addVariableEdges edge names g) where
  grows := by
    refine grows_addVariableEdges.mono ?_ ?_
    · rintro _ ⟨name, -, rfl⟩
      exact .ofVariable name false
    · rintro _ ⟨name, hname, rfl⟩
      exact hedge name hname
  triples := List.forall_mem_map.2 (mem_triples_addVariableEdges hsource hends)

theorem adds_owner {owner : EntityRef} (hid : id ∈ g.ids) (hedge : r.States (ownsEdge owner id)) :
    Adds r [ownsEdge owner id] g (addOwner labels owner id g) where
  grows := by
    refine grows_addOwner.mono ?_ ?_
    · rintro _ rfl
      exact .ofEntity labels owner false
    · rintro _ rfl
      exact hedge
  triples := List.forall_mem_singleton.2 (mem_triples_addOwner hid)

theorem adds_edges {edges : List Edge} (hends : ∀ e ∈ edges, e.source ∈ g.ids ∧ e.target ∈ g.ids)
    (hedges : ∀ e ∈ edges, r.States e) : Adds r edges g (g.addEdges edges) where
  grows := (grows_addEdges hedges).mono (fun _ => False.elim) fun _ he => he
  triples := mem_triples_addEdges hends

theorem adds_conditionEdges (labels : Labels) {c : Condition} (hc : c ∈ r.conditions)
    (hid : conditionId c.id ∈ g.ids) :
    Adds r (Content.conditionEdges c) g (addConditionEdges labels c g) := by
  have hreads : Adds r _ g
      (addVariableEdges (readsEdge (conditionId c.id) · "expression") (conditionReads c) g) :=
    adds_variableEdges _ hid (fun _ => ⟨rfl, rfl⟩) fun name hname => .expression hc hname
  exact hreads.trans (adds_owner (hreads.grows.ids hid) (.ownsCondition hc))

theorem adds_effectEdges (labels : Labels) {e : Effect} (he : e ∈ r.effects)
    (hid : effectId e.id ∈ g.ids) :
    Adds r (r.effectEdges e) g (addEffectEdges labels e (r.guarded e) g) := by
  have hguard : Adds r _ g (addVariableEdges (readsEdge (effectId e.id) · "guard") (r.guarded e) g) :=
    adds_variableEdges _ hid (fun _ => ⟨rfl, rfl⟩) fun name hname => .guard he hname
  have hpatch := hguard.trans (adds_variableEdges (readsEdge (effectId e.id) · "patch")
    (hguard.grows.ids hid) (fun _ => ⟨rfl, rfl⟩) fun name hname => .patch he hname)
  have hwrites := hpatch.trans (adds_variableEdges (writesEdge (effectId e.id))
    (hpatch.grows.ids hid) (fun _ => ⟨rfl, rfl⟩) fun name hname => .writes he hname)
  exact hwrites.trans (adds_owner (hwrites.grows.ids hid) (.ownsEffect he))

theorem Shows.addUsableCondition (h : Shows linked r g) (c : Condition) :
    Shows linked { r with conditions := r.conditions ++ [c] }
      (addConditionEdges labels c (g.addNode (conditionNode c))) := by
  let r' : Content := { r with conditions := r.conditions ++ [c] }
  have hc : c ∈ r'.conditions := List.mem_append_right _ (List.mem_singleton.2 rfl)
  have hnode : Grows r'.Holds r'.States g (g.addNode (conditionNode c)) :=
    .addNode (.ofCondition hc false)
  have hadds := adds_conditionEdges labels hc (mem_ids_addNode (g := g) (n := conditionNode c))
  refine h.grow ⟨fun _ => List.mem_append_left _, fun _ he => he, fun _ _ => rfl⟩
    (hnode.trans hadds.grows) h.effect_unique fun e he => ?_
  rcases Content.states_iff.1 he with ⟨d, hd, hmem⟩ | ⟨a, ha, hmem⟩
  · rcases List.mem_append.1 hd with hd | hd
    · exact .inl (Content.states_iff.2 (.inl ⟨d, hd, hmem⟩))
    · rw [List.mem_singleton.1 hd] at hmem
      exact .inr (hadds.triples e hmem)
  · exact .inl (Content.states_iff.2 (.inr ⟨a, ha, hmem⟩))

theorem Shows.addCondition (h : Shows linked r g) (c : Condition) :
    Shows linked (r.addCondition c) (addCondition labels c g).1 := by
  rw [Content.addCondition]
  by_cases husable : usableCondition c
  · by_cases hid : conditionId c.id ∈ g.ids
    · obtain ⟨d, hd, heq⟩ := h.conditionId_mem.1 hid
      rwa [addCondition_of_mem hid, keepFirst_of_taken hd heq]
    · have hfree : ∀ d ∈ r.conditions, d.id ≠ c.id := fun d hd heq =>
        hid (h.conditionId_mem.2 ⟨d, hd, heq⟩)
      rw [addCondition_of_usable husable hid, keepFirst_of_free hfree, if_pos husable]
      exact h.addUsableCondition c
  · rwa [addCondition_of_not_usable husable, keepFirst_of_not_usable husable]

theorem addEffect_of_not_usable {e : Effect} {guard : Option Condition} (husable : ¬usableEffect e) :
    (addEffect labels e guard g).1 = g := by
  rw [addEffect]
  split
  · rfl
  · rename_i hnamed
    cases hproblems : (Patch.check e.payload e.owner.type).problems with
    | cons problem rest => rfl
    | nil => simp_all [usableEffect]

theorem addEffect_of_mem {e : Effect} {guard : Option Condition} (hid : effectId e.id ∈ g.ids) :
    (addEffect labels e guard g).1 = g := by
  rw [addEffect, addNode?_of_mem (n := effectNode e) hid]
  split
  · rfl
  · split <;> rfl

theorem addEffect_of_usable {e : Effect} {guard : Option Condition} (husable : usableEffect e)
    (hid : effectId e.id ∉ g.ids) :
    (addEffect labels e guard g).1 =
      addEffectEdges labels e (guardReads e guard).1 (g.addNode (effectNode e)) := by
  simp only [usableEffect, Bool.and_eq_true, Bool.not_eq_true', List.isEmpty_iff] at husable
  rw [addEffect, husable.1, husable.2, addNode?_of_not_mem (n := effectNode e) hid]
  rfl

theorem Shows.addUsableEffect (h : Shows linked r g) (e : Effect)
    (hfree : ∀ d ∈ r.effects, d.id ≠ e.id) :
    Shows linked { r with effects := r.effects ++ [e] }
      (addEffectEdges labels e (r.guarded e) (g.addNode (effectNode e))) := by
  let r' : Content := { r with effects := r.effects ++ [e] }
  have he : e ∈ r'.effects := List.mem_append_right _ (List.mem_singleton.2 rfl)
  have hnode : Grows r'.Holds r'.States g (g.addNode (effectNode e)) := .addNode (.ofEffect he false)
  have hadds := adds_effectEdges labels he (mem_ids_addNode (g := g) (n := effectNode e))
  have hunique : ∀ a ∈ r'.effects, ∀ b ∈ r'.effects, a.id = b.id → a = b := by
    intro a ha b hb heq
    rcases List.mem_append.1 ha with ha | ha <;> rcases List.mem_append.1 hb with hb | hb
    · exact h.effect_unique a ha b hb heq
    · exact absurd (List.mem_singleton.1 hb ▸ heq) (hfree a ha)
    · exact absurd (List.mem_singleton.1 ha ▸ heq.symm) (hfree b hb)
    · rw [List.mem_singleton.1 ha, List.mem_singleton.1 hb]
  refine h.grow ⟨fun _ hc => hc, fun _ => List.mem_append_left _, fun _ _ => rfl⟩
    (hnode.trans hadds.grows) hunique fun d hd => ?_
  rcases Content.states_iff.1 hd with ⟨c, hc, hmem⟩ | ⟨a, ha, hmem⟩
  · exact .inl (Content.states_iff.2 (.inl ⟨c, hc, hmem⟩))
  · rcases List.mem_append.1 ha with ha | ha
    · exact .inl (Content.states_iff.2 (.inr ⟨a, ha, hmem⟩))
    · rw [List.mem_singleton.1 ha] at hmem
      exact .inr (hadds.triples d hmem)

theorem Shows.addEffect (h : Shows linked r g) (e : Effect) {guard : Option Condition}
    (hguard : (guardReads e guard).1 = r.guarded e) :
    Shows linked (r.addEffect e) (addEffect labels e guard g).1 := by
  rw [Content.addEffect]
  by_cases husable : usableEffect e
  · by_cases hid : effectId e.id ∈ g.ids
    · obtain ⟨d, hd, heq⟩ := h.effectId_mem.1 hid
      rwa [addEffect_of_mem hid, keepFirst_of_taken hd heq]
    · have hfree : ∀ d ∈ r.effects, d.id ≠ e.id := fun d hd heq =>
        hid (h.effectId_mem.2 ⟨d, hd, heq⟩)
      rw [addEffect_of_usable husable hid, keepFirst_of_free hfree, if_pos husable, hguard]
      exact h.addUsableEffect e hfree
  · rwa [addEffect_of_not_usable husable, keepFirst_of_not_usable husable]

/-! ### All records -/

/-- The graph of records before effects are linked and cycles marked. -/
def unlinked (conditions : List Condition) (effects : List Effect) (entities : List Entity) : Graph :=
  (addEffects (labelsOf entities) conditions effects
    (addConditions (labelsOf entities) conditions .empty).1).1

theorem addConditions_eq (conditions : List Condition) :
    (addConditions labels conditions g).1 =
      (conditions.filter (·.isActive)).foldl (fun g c => (addCondition labels c g).1) g := by
  rw [addConditions]
  exact (List.foldl_hom Prod.fst fun _ _ => rfl).symm

theorem addEffects_eq (conditions : List Condition) (effects : List Effect) :
    (addEffects labels conditions effects g).1 =
      (effects.filter (·.isActive)).foldl
        (fun g e => (addEffect labels e (guardOf conditions e).1 g).1) g := by
  rw [addEffects]
  exact (List.foldl_hom Prod.fst fun _ _ => rfl).symm

/-- The graph of records shows their content. -/
theorem shows_unlinked (conditions : List Condition) (effects : List Effect)
    (entities : List Entity) :
    Shows linked (.ofRecords conditions effects) (unlinked conditions effects entities) := by
  have hconditions : ∀ (cs : List Condition) (r : Content) (g : Graph), Shows linked r g →
      Shows linked { r with conditions := cs.foldl (keepFirst usableCondition (·.id)) r.conditions }
        (cs.foldl (fun g c => (addCondition (labelsOf entities) c g).1) g) := by
    intro cs
    induction cs with
    | nil => exact fun _ _ h => h
    | cons c rest ih => exact fun r g h => ih _ _ (h.addCondition c)
  have heffects : ∀ (es : List Effect) (r : Content) (g : Graph), Shows linked r g →
      r.guarded = Content.guardVariables conditions →
      Shows linked { r with effects := es.foldl (keepFirst usableEffect (·.id)) r.effects }
        (es.foldl (fun g e => (addEffect (labelsOf entities) e (guardOf conditions e).1 g).1) g) := by
    intro es
    induction es with
    | nil => exact fun _ _ h _ => h
    | cons e rest ih => exact fun r g h hguarded => ih _ _ (h.addEffect e (by rw [hguarded]; rfl)) hguarded
  rw [unlinked, addEffects_eq, addConditions_eq]
  exact heffects _ _ _ (hconditions _ _ _ (.empty (Content.guardVariables conditions))) rfl

theorem attached_addCondition (h : Attached g) (c : Condition) :
    Attached (addCondition labels c g).1 := by
  by_cases husable : usableCondition c
  · by_cases hid : conditionId c.id ∈ g.ids
    · rwa [addCondition_of_mem hid]
    · rw [addCondition_of_usable husable hid, addConditionEdges]
      have hadded : Attached (g.addNode (conditionNode c)) := h.addNode nofun nofun
      refine Attached.addOwner (Attached.addVariableEdges ⟨hadded, mem_ids_addNode⟩ ?_)
      exact fun _ => ⟨rfl, rfl⟩
  · rwa [addCondition_of_not_usable husable]

theorem attached_addEffect (h : Attached g) (e : Effect) (guard : Option Condition) :
    Attached (addEffect labels e guard g).1 := by
  by_cases husable : usableEffect e
  · by_cases hid : effectId e.id ∈ g.ids
    · rwa [addEffect_of_mem hid]
    · rw [addEffect_of_usable husable hid, addEffectEdges]
      have hadded : Attached (g.addNode (effectNode e)) := h.addNode nofun nofun
      refine Attached.addOwner (Attached.addVariableEdges (Attached.addVariableEdges
        (Attached.addVariableEdges ⟨hadded, mem_ids_addNode⟩ ?_) ?_) ?_)
      all_goals exact fun _ => ⟨rfl, rfl⟩
  · rwa [addEffect_of_not_usable husable]

theorem attached_unlinked (conditions : List Condition) (effects : List Effect)
    (entities : List Entity) : Attached (unlinked conditions effects entities) := by
  have hfold : ∀ {α : Type} (step : Graph → α → Graph), (∀ g x, Attached g → Attached (step g x)) →
      ∀ (xs : List α) (g : Graph), Attached g → Attached (xs.foldl step g) := by
    intro α step hstep xs
    induction xs with
    | nil => exact fun _ h => h
    | cons x rest ih => exact fun g h => ih _ (hstep g x h)
  rw [unlinked, addEffects_eq, addConditions_eq]
  refine hfold _ (fun g e h => attached_addEffect h e _) _ _ ?_
  refine hfold _ (fun g c h => attached_addCondition h c) _ _ ?_
  exact fun n hn => absurd hn List.not_mem_nil

end CampaignRules.Graph
