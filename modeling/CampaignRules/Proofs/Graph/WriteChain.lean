import CampaignRules.Proofs.Graph.Loops

/-! Links between effects in a graph of records. An effect is linked to another one just if there is a
variable that it reads and the other one writes. All other edges lead from entities down to conditions
and effects and from these down to variables, so a cycle runs along links only, and without links there is
none. Linking the effects of a graph again replaces the links by the same ones. -/

namespace CampaignRules.Graph

/-- There is a link from one effect to another. -/
def Linked (g : Graph) (a b : Bytes) : Prop :=
  g.hasEdge (effectId a) (effectId b) (some .dependsOn) = true

/-- The height of a node by its kind. Edges other than links lead down. -/
def level (id : Bytes) : Nat :=
  if idKind id = "ENTITY" then 2
  else if idKind id = "VARIABLE" then 0
  else 1

@[simp] theorem level_variableId (name : Bytes) : level (variableId name) = 0 := rfl

@[simp] theorem level_conditionId (id : Bytes) : level (conditionId id) = 1 := rfl

@[simp] theorem level_effectId (id : Bytes) : level (effectId id) = 1 := rfl

@[simp] theorem level_entityId (ref : EntityRef) : level (entityId ref) = 2 := rfl

variable {linked : Bool} {r : Content} {g : Graph} {a b : Bytes}

theorem linked_iff : g.Linked a b ↔ (effectId a, effectId b, .dependsOn) ∈ g.triples :=
  mem_triples.symm

/-- The id of a node tells whether it is of a variable. -/
theorem Content.Holds.of_variableId {n : Node} (hn : r.Holds n) {name : Bytes}
    (hid : n.id = variableId name) : n.type = .variable := by
  cases hn with
  | ofVariable name mark => rfl
  | ofEntity labels ref mark =>
      have hne : entityId ref ≠ variableId name :=
        ne_of_idKind_ne (by simp only [idKind_entityId, idKind_variableId]; decide)
      exact absurd hid hne
  | ofCondition hc mark => exact absurd hid (conditionId_ne_variableId _ _)
  | ofEffect he mark => exact absurd hid (effectId_ne_variableId _ _)

/-- Links go from readers of a variable to its other writers. -/
theorem Current.linked_iff_exists_variable (h : Current true r g) :
    g.Linked a b ↔ a ≠ b ∧ g.isEffect (effectId a) = true ∧ g.isEffect (effectId b) = true ∧
      ∃ v ∈ g.nodes, v.type = .variable ∧ g.hasEdge (effectId a) v.id (some .reads) = true ∧
        g.hasEdge (effectId b) v.id (some .writes) = true := by
  rw [linked_iff]
  simp only [h.shows.isEffect_iff]
  constructor
  · intro hlink
    obtain ⟨hidA, hidB⟩ := h.shows.wellFormed.mem_ids_of_mem_triples hlink
    obtain ⟨x, hx, rfl⟩ := h.shows.effectId_mem.1 hidA
    obtain ⟨y, hy, rfl⟩ := h.shows.effectId_mem.1 hidB
    obtain ⟨-, hne, name, hread, hwrite⟩ := (h.chained x hx y hy).1 hlink
    have hreads := (h.shows.mem_reads hx).2 ⟨name, rfl, hread⟩
    have hwrites := (h.shows.mem_writes hy).2 ⟨name, rfl, hwrite⟩
    obtain ⟨v, hv, hid⟩ := List.mem_map.1 (h.shows.wellFormed.mem_ids_of_mem_triples hreads).2
    refine ⟨hne, ⟨x, hx, rfl⟩, ⟨y, hy, rfl⟩, v, hv, (h.shows.node v hv).of_variableId hid, ?_⟩
    rw [hid]
    exact ⟨Graph.mem_triples.1 hreads, Graph.mem_triples.1 hwrites⟩
  · rintro ⟨hne, ⟨x, hx, hidA⟩, ⟨y, hy, hidB⟩, v, hv, -, hreads, hwrites⟩
    obtain rfl := effectId_inj.1 hidA
    obtain rfl := effectId_inj.1 hidB
    obtain ⟨name, hname, hread⟩ := (h.shows.mem_reads hx).1 (Graph.mem_triples.2 hreads)
    obtain ⟨name', hname', hwrite⟩ := (h.shows.mem_writes hy).1 (Graph.mem_triples.2 hwrites)
    rw [← variableId_inj.1 (hname.symm.trans hname')] at hwrite
    exact (h.chained x hx y hy).2 ⟨rfl, hne, name, hread, hwrite⟩

theorem Content.States.level_lt {e : Edge} (he : r.States e) : level e.target < level e.source := by
  cases he with
  | expression _ _ | guard _ _ | patch _ _ | writes _ _ | ownsCondition _ | ownsEffect _ =>
      simp [readsEdge, writesEdge, ownsEdge]

/-- A step leads down, or it is a link. -/
theorem Shows.level_lt_or_linked (h : Shows linked r g) {source target : Bytes}
    (hadj : g.Adj source target) : level target < level source ∨
      linked = true ∧ ∃ a b, source = effectId a ∧ target = effectId b ∧ g.Linked a b := by
  obtain ⟨e, he, rfl, rfl⟩ := hadj
  rcases h.sound e he with hstates | ⟨hlinked, x, -, y, -, hsource, htarget, htype⟩
  · exact .inl hstates.level_lt
  · refine .inr ⟨hlinked, x.id, y.id, hsource, htarget, linked_iff.2 ?_⟩
    exact mem_triples_iff.2 ⟨e, he, hsource, htarget, htype⟩

/-- So does a walk lead down, or it is a chain of links. -/
theorem Shows.level_lt_or_chain (h : Shows linked r g) {source target : Bytes}
    (hwalk : Relation.TransGen g.Adj source target) : level target < level source ∨
      linked = true ∧ ∃ a b, source = effectId a ∧ target = effectId b ∧
        Relation.TransGen g.Linked a b := by
  induction hwalk with
  | single hadj =>
      refine (h.level_lt_or_linked hadj).imp_right ?_
      rintro ⟨hlinked, a, b, hsource, htarget, hlink⟩
      exact ⟨hlinked, a, b, hsource, htarget, .single hlink⟩
  | tail hwalk hadj ih =>
      rcases ih with hdown | ⟨hlinked, a, b, rfl, rfl, hchain⟩ <;>
        rcases h.level_lt_or_linked hadj with hdown' | ⟨hlinked', c, d, hsource, rfl, hlink⟩
      · exact .inl (hdown'.trans hdown)
      · subst hsource
        exact .inl hdown
      · exact .inl hdown'
      · rw [← effectId_inj.1 hsource] at hlink
        exact .inr ⟨hlinked', a, d, rfl, rfl, hchain.tail hlink⟩

/-- A walk from a node back to itself is a chain of links. -/
theorem Shows.chain_of_cycle (h : Shows linked r g) {id : Bytes} (hcycle : Relation.TransGen g.Adj id id) :
    linked = true ∧ ∃ a, id = effectId a ∧ Relation.TransGen g.Linked a a := by
  obtain ⟨hlinked, a, b, rfl, heq, hchain⟩ := (h.level_lt_or_chain hcycle).resolve_left (lt_irrefl _)
  rw [← effectId_inj.1 heq] at hchain
  exact ⟨hlinked, a, rfl, hchain⟩

theorem walk_of_chain (hchain : Relation.TransGen g.Linked a b) :
    Relation.TransGen g.Adj (effectId a) (effectId b) := by
  refine hchain.lift effectId fun x y hlink => ?_
  obtain ⟨e, he, hsource, htarget, -⟩ := hasEdge_iff.1 hlink
  exact ⟨e, he, hsource, htarget⟩

theorem Shows.isEffect_of_mem_cycleMembers (h : Shows linked r g) {id : Bytes}
    (hid : id ∈ g.cycleMembers) : linked = true ∧ g.isEffect id = true := by
  have hcycle := (mem_cycleMembers_iff h.wellFormed).1 hid
  obtain ⟨hlinked, a, rfl, -⟩ := h.chain_of_cycle hcycle
  obtain ⟨_, hadj, -⟩ := Relation.TransGen.head'_iff.1 hcycle
  obtain ⟨e, he, rfl⟩ := h.effectId_mem.1 (h.wellFormed.adj_mem hadj).1
  exact ⟨hlinked, h.isEffect_iff.2 ⟨e, he, rfl⟩⟩

theorem Shows.cycleMembers_eq_nil (h : Shows false r g) : g.cycleMembers = [] :=
  List.eq_nil_iff_forall_not_mem.2 fun _ hid =>
    Bool.noConfusion (h.isEffect_of_mem_cycleMembers hid).1

theorem Shows.mem_cyclicEffects_iff (h : Shows linked r g) :
    ∃ ids, g.cyclicEffects = .ok ids ∧ ∀ id, id ∈ ids ↔ Relation.TransGen g.Linked id id := by
  obtain ⟨ids, hids, hmem⟩ := h.cyclicEffects_eq
  refine ⟨ids, hids, fun id => (hmem id).trans ⟨?_, fun hchain => ?_⟩⟩
  · rintro ⟨e, -, rfl, hcycle⟩
    obtain ⟨-, a, heq, hchain⟩ := h.chain_of_cycle hcycle
    rwa [← effectId_inj.1 heq] at hchain
  · have hwalk := walk_of_chain hchain
    obtain ⟨_, hadj, -⟩ := Relation.TransGen.head'_iff.1 hwalk
    obtain ⟨e, he, rfl⟩ := h.effectId_mem.1 (h.wellFormed.adj_mem hadj).1
    exact ⟨e, he, rfl, hwalk⟩

/-- Where the sweep over a list returns, so does the function for the item that gave each result. -/
theorem exists_of_mem_mapM {ε α β : Type} {f : α → Except ε β} {xs : List α} {ys : List β}
    (hok : xs.mapM f = .ok ys) {y : β} (hy : y ∈ ys) : ∃ x ∈ xs, f x = .ok y := by
  induction xs generalizing ys with
  | nil =>
      cases hok
      cases hy
  | cons x rest ih =>
      rw [List.mapM_cons] at hok
      obtain ⟨first, hfirst, hrest⟩ := bind_eq_ok.1 hok
      obtain ⟨others, hothers, heq⟩ := bind_eq_ok.1 hrest
      cases heq
      rcases List.mem_cons.1 hy with rfl | hy
      · exact ⟨x, List.mem_cons_self, hfirst⟩
      · obtain ⟨x', hx', hfound⟩ := ih hothers hy
        exact ⟨x', List.mem_cons_of_mem _ hx', hfound⟩

theorem isChainLink_of_mem_linksOf {e link : Edge} {links : List Edge} (hlinks : g.linksOf e = .ok links)
    (hlink : link ∈ links) : g.isChainLink link = true := by
  rw [linksOf] at hlinks
  split at hlinks
  · rename_i hreader
    dsimp only at hlinks
    split at hlinks
    · cases hlinks
      cases hlink
    · obtain ⟨name, -, heq⟩ := bind_eq_ok.1 hlinks
      cases heq
      obtain ⟨writer, hwriter, rfl⟩ := List.mem_map.1 hlink
      obtain ⟨w, hw, rfl⟩ := List.mem_map.1 (List.mem_filter.1 hwriter).1
      simp only [List.mem_filter, Bool.and_eq_true] at hw hreader
      simp [isChainLink, hreader.2, hw.2.1.2]
  · cases hlinks
    cases hlink

theorem isChainLink_of_mem_chainLinks {links : List Edge} (hlinks : g.chainLinks = .ok links)
    {link : Edge} (hlink : link ∈ links) : g.isChainLink link = true := by
  obtain ⟨lists, hlists, heq⟩ := bind_eq_ok.1 hlinks
  cases heq
  obtain ⟨list, hlist, hlink⟩ := List.mem_flatten.1 hlink
  obtain ⟨e, -, he⟩ := exists_of_mem_mapM hlists hlist
  exact isChainLink_of_mem_linksOf he hlink

/-- Links that are added are taken away again. -/
theorem withoutChains_addEdges {links : List Edge} (hlinks : ∀ e ∈ links, g.isChainLink e = true) :
    (g.addEdges links).withoutChains = g.withoutChains := by
  induction links generalizing g with
  | nil => rfl
  | cons e rest ih =>
      rw [List.forall_mem_cons] at hlinks
      have hadded : (g.addEdge e).withoutChains = g.withoutChains ∧
          ∀ e', (g.addEdge e).isChainLink e' = g.isChainLink e' := by
        rw [addEdge_eq]
        split
        · refine ⟨?_, fun _ => rfl⟩
          have hedges : ((g.edges ++ [e]).filter fun e => !g.isChainLink e) =
              g.edges.filter fun e => !g.isChainLink e := by simp [hlinks.1]
          exact congrArg (Graph.mk g.nodes) hedges
        · exact ⟨rfl, fun _ => rfl⟩
      have hrest := ih (g := g.addEdge e) fun e' he' => (hadded.2 e').trans (hlinks.2 e' he')
      exact hrest.trans hadded.1

theorem withoutChains_idem (g : Graph) : g.withoutChains.withoutChains = g.withoutChains := by
  have hedges : ((g.edges.filter fun e => !g.isChainLink e).filter fun e => !g.isChainLink e) =
      g.edges.filter fun e => !g.isChainLink e := by simp
  exact congrArg (Graph.mk g.nodes) hedges

/-- Linking drops the old links; what comes after that depends on nothing else. -/
theorem run_linkWriteChains (g : Graph) :
    linkWriteChains.run g =
      match g.withoutChains.chainLinks with
      | .ok links => (.ok (), g.withoutChains.addEdges links)
      | .error e => (.error e, g.withoutChains) := by
  have hrun : linkWriteChains.run g =
      (liftExcept g.withoutChains.chainLinks >>= fun links =>
        (modify fun g => g.addEdges links : Edit Unit)).run g.withoutChains := rfl
  rw [hrun]
  cases g.withoutChains.chainLinks with
  | ok links => rfl
  | error e => rfl

/-- Whether it succeeds or not, to link once more does the same and changes nothing. -/
theorem run_linkWriteChains_idem (g : Graph) :
    linkWriteChains.run (linkWriteChains.run g).2 = linkWriteChains.run g := by
  have hsame : (linkWriteChains.run g).2.withoutChains = g.withoutChains := by
    rw [run_linkWriteChains]
    cases hlinks : g.withoutChains.chainLinks with
    | ok links =>
        have hchains : ∀ e ∈ links, g.withoutChains.isChainLink e = true :=
          fun e he => isChainLink_of_mem_chainLinks hlinks he
        exact (withoutChains_addEdges hchains).trans (withoutChains_idem g)
    | error e => exact withoutChains_idem g
  rw [run_linkWriteChains, hsame, ← run_linkWriteChains]

/-- In a graph that is built with links, one effect is linked to another just if it reads a variable that
the other one writes; only effects are on cycles; and those that are told to be on one are those on a
closed chain of links. A graph that is built without links has no cycles. In any graph, to link once more
after linking changes nothing. -/
theorem write_chains_exact (conditions : List Condition) (effects : List Effect)
    (entities : List Entity) :
    let g := (GraphBuild.ofRecords true conditions effects entities).graph
    (∀ a b, g.Linked a b ↔
      a ≠ b ∧ g.isEffect (effectId a) = true ∧ g.isEffect (effectId b) = true ∧
        ∃ v ∈ g.nodes, v.type = .variable ∧ g.hasEdge (effectId a) v.id (some .reads) = true ∧
          g.hasEdge (effectId b) v.id (some .writes) = true) ∧
      (∀ id ∈ g.cycleMembers, g.isEffect id = true) ∧
      (∃ ids, g.cyclicEffects = .ok ids ∧ ∀ id, id ∈ ids ↔ Relation.TransGen g.Linked id id) ∧
      (GraphBuild.ofRecords false conditions effects entities).graph.cycleMembers = [] ∧
      ∀ h : Graph, linkWriteChains.run (linkWriteChains.run h).2 = linkWriteChains.run h := by
  intro g
  have hlinked : Current true (.ofRecords conditions effects) g :=
    current_ofRecords conditions effects entities
  have hunlinked : Current false (.ofRecords conditions effects)
      (GraphBuild.ofRecords false conditions effects entities).graph :=
    current_ofRecords conditions effects entities
  exact ⟨fun _ _ => hlinked.linked_iff_exists_variable,
    fun _ hid => (hlinked.shows.isEffect_of_mem_cycleMembers hid).2,
    hlinked.shows.mem_cyclicEffects_iff, hunlinked.shows.cycleMembers_eq_nil, run_linkWriteChains_idem⟩

end CampaignRules.Graph
