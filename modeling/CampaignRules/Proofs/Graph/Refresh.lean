import CampaignRules.Proofs.Graph.Content
import CampaignRules.Proofs.Graph.CycleMember

/-! What is derived in a graph of records. Links between effects follow from the edges to variables:
one effect depends on another if it reads a variable that the other one writes. Marks of cycles
follow from all edges. Whatever links and marks a graph had, bringing them up to date succeeds on a
graph that shows some content, and afterwards they are those that the content calls for. -/

namespace CampaignRules.Graph

/-- Started on a graph, the changes succeed with a result and leave another graph. -/
def Yields {α : Type} (x : Edit α) (g : Graph) (a : α) (g' : Graph) : Prop :=
  x.run g = (.ok a, g')

namespace Yields

variable {α β : Type} {x : Edit α} {f : α → Edit β} {g g' g'' : Graph} {a : α} {b : β}

theorem pure (a : α) (g : Graph) : Yields (Pure.pure a) g a g := rfl

theorem get (g : Graph) : Yields MonadState.get g g g := rfl

theorem modify (change : Graph → Graph) (g : Graph) : Yields (modify change) g () (change g) := rfl

theorem liftExcept {outcome : Except Error α} (hok : outcome = .ok a) :
    Yields (liftExcept outcome) g a g := by
  subst hok
  rfl

theorem bind (hx : Yields x g a g') (hf : Yields (f a) g' b g'') : Yields (x >>= f) g b g'' := by
  have hrun : (x >>= f).run g = ExceptT.bindCont f (x.run g).1 (x.run g).2 := rfl
  rw [Yields, hrun, hx]
  exact hf

/-- What the first change leads to is where the second one starts. -/
theorem seq {P Q : Graph → Prop} (hx : ∃ g', Yields x g a g' ∧ P g')
    (hf : ∀ g', P g' → ∃ g'', Yields (f a) g' b g'' ∧ Q g'') :
    ∃ g'', Yields (x >>= f) g b g'' ∧ Q g'' := by
  obtain ⟨g', hx, hP⟩ := hx
  obtain ⟨g'', hf, hQ⟩ := hf g' hP
  exact ⟨g'', hx.bind hf, hQ⟩

/-- A loop keeps what each of its turns keeps. -/
theorem forIn {xs : List α} {body : α → PUnit → Edit (ForInStep PUnit)} (inv : List α → Graph → Prop)
    (hstart : inv [] g)
    (hstep : ∀ done x rest g, xs = done ++ x :: rest → inv done g →
      ∃ g', Yields (body x ⟨⟩) g (.yield ⟨⟩) g' ∧ inv (done ++ [x]) g') :
    ∃ g', Yields (ForIn.forIn xs PUnit.unit body) g ⟨⟩ g' ∧ inv xs g' := by
  suffices h : ∀ (rest done : List α) (g : Graph), xs = done ++ rest → inv done g →
      ∃ g', Yields (ForIn.forIn rest PUnit.unit body) g ⟨⟩ g' ∧ inv xs g' from h xs [] g rfl hstart
  intro rest
  induction rest with
  | nil =>
      intro done g hxs hinv
      rw [List.append_nil] at hxs
      exact ⟨g, .pure PUnit.unit g, hxs ▸ hinv⟩
  | cons x rest ih =>
      intro done g hxs hinv
      obtain ⟨g', hturn, hinv'⟩ := hstep done x rest g hxs hinv
      obtain ⟨g'', hrest, hdone⟩ := ih (done ++ [x]) g' (by simpa using hxs) hinv'
      refine ⟨g'', ?_, hdone⟩
      rw [List.forIn_cons]
      exact hturn.bind hrest

end Yields

variable {linked : Bool} {r r' : Content} {g g' : Graph}

theorem Shows.isEffect_iff (h : Shows linked r g) {id : Bytes} :
    g.isEffect id = true ↔ ∃ e ∈ r.effects, id = effectId e.id := by
  constructor
  · intro heffect
    obtain ⟨n, hfound, htype⟩ := (Option.any_eq_true _ _).1 heffect
    obtain ⟨hn, rfl⟩ := (node?_eq_some_iff h.wellFormed).1 hfound
    obtain ⟨e, he, hid, -⟩ := (h.node n hn).of_effect (of_decide_eq_true htype)
    exact ⟨e, he, hid⟩
  · rintro ⟨e, he, rfl⟩
    obtain ⟨n, hn, hid⟩ := List.mem_map.1 (h.effectId_mem.2 ⟨e, he, rfl⟩)
    obtain ⟨-, -, -, htype, -⟩ := (h.node n hn).of_effectId hid
    rw [isEffect, (node?_eq_some_iff h.wellFormed).2 ⟨hn, hid⟩]
    exact decide_eq_true htype

/-- An effect reads a variable through its guard or its patch. -/
theorem Shows.mem_reads (h : Shows linked r g) {a : Effect} (ha : a ∈ r.effects) {v : Bytes} :
    (effectId a.id, v, .reads) ∈ g.triples ↔
      ∃ name, v = variableId name ∧ (name ∈ r.guarded a ∨ name ∈ Patch.reads a.payload) := by
  constructor
  · intro hmem
    obtain ⟨e, he, hsource, htarget, htype⟩ := mem_triples_iff.1 hmem
    rcases h.sound e he with hstates | ⟨-, _, -, _, -, -, -, hdepends⟩
    · cases hstates with
      | expression hc hname => exact absurd hsource (conditionId_ne_effectId _ _)
      | guard hb hname =>
          rw [h.effect_unique _ hb _ ha (effectId_inj.1 hsource)] at hname
          exact ⟨_, htarget.symm, .inl hname⟩
      | patch hb hname =>
          rw [h.effect_unique _ hb _ ha (effectId_inj.1 hsource)] at hname
          exact ⟨_, htarget.symm, .inr hname⟩
      | writes hb hname => cases htype
      | ownsCondition hc => cases htype
      | ownsEffect hb => cases htype
    · rw [hdepends] at htype
      cases htype
  · rintro ⟨name, rfl, hname | hname⟩
    · exact h.complete _ (.guard ha hname)
    · exact h.complete _ (.patch ha hname)

theorem Shows.mem_writes (h : Shows linked r g) {a : Effect} (ha : a ∈ r.effects) {v : Bytes} :
    (effectId a.id, v, .writes) ∈ g.triples ↔
      ∃ name, v = variableId name ∧ name ∈ Patch.writes a.payload := by
  constructor
  · intro hmem
    obtain ⟨e, he, hsource, htarget, htype⟩ := mem_triples_iff.1 hmem
    rcases h.sound e he with hstates | ⟨-, _, -, _, -, -, -, hdepends⟩
    · cases hstates with
      | writes hb hname =>
          rw [h.effect_unique _ hb _ ha (effectId_inj.1 hsource)] at hname
          exact ⟨_, htarget.symm, hname⟩
      | expression _ _ | guard _ _ | patch _ _ | ownsCondition _ | ownsEffect _ => cases htype
    · rw [hdepends] at htype
      cases htype
  · rintro ⟨name, rfl, hname⟩
    exact h.complete _ (.writes ha hname)

/-- Links are those edges between effects that may have been derived. -/
theorem Shows.isChainLink_iff (h : Shows linked r g) {e : Edge} :
    g.isChainLink e = true ↔ r.Chains e := by
  rw [isChainLink, Bool.and_eq_true, Bool.and_eq_true, h.isEffect_iff, h.isEffect_iff,
    decide_eq_true_eq]
  constructor
  · rintro ⟨⟨htype, a, ha, hsource⟩, b, hb, htarget⟩
    exact ⟨a, ha, b, hb, hsource, htarget, htype⟩
  · rintro ⟨a, ha, b, hb, hsource, htarget, htype⟩
    exact ⟨⟨htype, a, ha, hsource⟩, b, hb, htarget⟩

theorem Content.States.not_chains {e : Edge} (hstates : r.States e) : ¬r.Chains e := by
  rintro ⟨a, -, b, -, hsource, htarget, htype⟩
  cases hstates with
  | expression _ _ | guard _ _ | patch _ _ | writes _ _ => cases htype
  | ownsCondition hc => exact effectId_ne_entityId _ _ hsource.symm
  | ownsEffect he => exact effectId_ne_entityId _ _ hsource.symm

/-- Whether an edge may have been derived shows in its triple. -/
theorem Content.Chains.congr {e e' : Edge} (hchains : r.Chains e) (htriple : e'.triple = e.triple) :
    r.Chains e' := by
  obtain ⟨hsource, htarget, htype⟩ := Edge.triple_eq_iff.1 htriple
  obtain ⟨a, ha, b, hb, hends⟩ := hchains
  exact ⟨a, ha, b, hb, by rwa [hsource, htarget, htype]⟩

/-- Without the links a graph shows the same, and no effects are linked any more. -/
theorem Shows.withoutChains (h : Shows linked r g) : Shows false r g.withoutChains where
  wellFormed := h.wellFormed.filterEdges _
  effect_unique := h.effect_unique
  node := h.node
  sound e he := by
    obtain ⟨hmem, hkept⟩ := List.mem_filter.1 he
    rcases h.sound e hmem with hstates | ⟨-, hchains⟩
    · exact .inl hstates
    · simp [h.isChainLink_iff.2 hchains] at hkept
  complete e he := by
    obtain ⟨e', he', htriple⟩ := List.mem_map.1 (h.complete e he)
    refine List.mem_map.2 ⟨e', List.mem_filter.2 ⟨he', ?_⟩, htriple⟩
    rw [Bool.not_eq_true', Bool.eq_false_iff]
    exact fun hlink => he.not_chains ((h.isChainLink_iff.1 hlink).congr htriple.symm)

/-- The first effect reads a variable that the second one writes. -/
def Content.Feeds (r : Content) (a b : Effect) : Prop :=
  a.id ≠ b.id ∧
    ∃ name, (name ∈ r.guarded a ∨ name ∈ Patch.reads a.payload) ∧ name ∈ Patch.writes b.payload

/-- The edge gives rise to a link with the given triple. -/
def LinksTo (g : Graph) (e : Edge) (t : Bytes × Bytes × EdgeType) : Prop :=
  e.type = .reads ∧ g.isEffect e.source = true ∧
    ∃ writer ∈ g.writersOf e.target, writer ≠ e.source ∧ t = (e.source, writer, .dependsOn)

/-- Edges of readers name a variable and the reason for reading it. -/
theorem Shows.metadataText_reads (h : Shows linked r g) {e : Edge} (he : e ∈ g.edges)
    (hreads : e.type = .reads) :
    ∃ name reason, metadataText "variable" e.metadata = .ok name ∧
      metadataText "source" e.metadata = .ok reason := by
  rcases h.sound e he with hstates | ⟨-, _, -, _, -, -, -, hdepends⟩
  · cases hstates with
    | expression _ _ | guard _ _ | patch _ _ => exact ⟨_, _, metadataText_readsEdge _ _ _⟩
    | writes _ _ | ownsCondition _ | ownsEffect _ => cases hreads
  · rw [hdepends] at hreads
    cases hreads

theorem Shows.linksOf_eq (h : Shows linked r g) {e : Edge} (he : e ∈ g.edges) :
    ∃ links, g.linksOf e = .ok links ∧ ∀ t, t ∈ links.map Edge.triple ↔ LinksTo g e t := by
  rw [linksOf]
  split
  · rename_i hreader
    rw [Bool.and_eq_true, decide_eq_true_eq] at hreader
    obtain ⟨hreads, hsource⟩ := hreader
    obtain ⟨name, -, hname, -⟩ := h.metadataText_reads he hreads
    refine ⟨((g.writersOf e.target).filter (· ≠ e.source)).map
      (⟨e.source, ·, .dependsOn, .object [("via", name)]⟩), ?_, fun t => ?_⟩
    · simp only [hname]
      split
      · rename_i hnone
        rw [List.isEmpty_iff.1 hnone]
        rfl
      · rfl
    · simp only [LinksTo, hreads, hsource, List.map_map, List.mem_map, List.mem_filter,
        Function.comp_apply, Edge.triple, decide_eq_true_eq, true_and, and_assoc]
      exact exists_congr fun _ => and_congr_right fun _ => and_congr_right fun _ => eq_comm
  · rename_i hreader
    refine ⟨[], rfl, fun t => ⟨fun hmem => absurd hmem List.not_mem_nil, fun hlinks => ?_⟩⟩
    exact absurd (by simp [hlinks.1, hlinks.2.1]) hreader

theorem Shows.chainLinks_eq (h : Shows linked r g) :
    ∃ links, g.chainLinks = .ok links ∧
      ∀ t, t ∈ links.map Edge.triple ↔ ∃ e ∈ g.edges, LinksTo g e t := by
  suffices hall : ∀ es : List Edge, (∀ e ∈ es, e ∈ g.edges) → ∃ lists,
      es.mapM g.linksOf = .ok lists ∧
        ∀ t, t ∈ lists.flatten.map Edge.triple ↔ ∃ e ∈ es, LinksTo g e t by
    obtain ⟨lists, hlists, hmem⟩ := hall g.edges fun _ he => he
    exact ⟨lists.flatten, by rw [chainLinks, hlists]; rfl, hmem⟩
  intro es hes
  induction es with
  | nil => exact ⟨[], rfl, by simp⟩
  | cons e rest ih =>
      rw [List.forall_mem_cons] at hes
      obtain ⟨links, hlinks, hmem⟩ := h.linksOf_eq hes.1
      obtain ⟨lists, hlists, hmem'⟩ := ih hes.2
      refine ⟨links :: lists, by rw [List.mapM_cons, hlinks, hlists]; rfl, fun t => ?_⟩
      rw [List.flatten_cons, List.map_append, List.mem_append, hmem, hmem', List.exists_mem_cons_iff]

/-- The links that arise are those between effects of which one reads what the other writes. -/
theorem Shows.exists_linksTo_iff (h : Shows linked r g) {t : Bytes × Bytes × EdgeType} :
    (∃ e ∈ g.edges, LinksTo g e t) ↔
      ∃ a ∈ r.effects, ∃ b ∈ r.effects, r.Feeds a b ∧ t = (effectId a.id, effectId b.id, .dependsOn) := by
  constructor
  · rintro ⟨e, he, hreads, hsource, writer, hwriter, hne, rfl⟩
    simp only [writersOf, List.mem_map, List.mem_filter, Bool.and_eq_true, decide_eq_true_eq]
      at hwriter
    obtain ⟨w, ⟨hw, ⟨hwrites, heffect⟩, htarget⟩, rfl⟩ := hwriter
    obtain ⟨a, ha, hidA⟩ := h.isEffect_iff.1 hsource
    obtain ⟨b, hb, hidB⟩ := h.isEffect_iff.1 heffect
    have hmemA : (effectId a.id, e.target, EdgeType.reads) ∈ g.triples :=
      List.mem_map.2 ⟨e, he, by rw [Edge.triple, hidA, hreads]⟩
    have hmemB : (effectId b.id, e.target, EdgeType.writes) ∈ g.triples :=
      List.mem_map.2 ⟨w, hw, by rw [Edge.triple, hidB, hwrites, htarget]⟩
    obtain ⟨name, hname, hread⟩ := (h.mem_reads ha).1 hmemA
    obtain ⟨name', hname', hwrite⟩ := (h.mem_writes hb).1 hmemB
    rw [← variableId_inj.1 (hname.symm.trans hname')] at hwrite
    refine ⟨a, ha, b, hb, ⟨fun heq => hne ?_, name, hread, hwrite⟩, by rw [hidA, hidB]⟩
    rw [hidA, hidB, heq]
  · rintro ⟨a, ha, b, hb, ⟨hne, name, hread, hwrite⟩, rfl⟩
    obtain ⟨e, he, hsource, htarget, hreads⟩ :=
      mem_triples_iff.1 ((h.mem_reads ha).2 ⟨name, rfl, hread⟩)
    obtain ⟨w, hw, hsource', htarget', hwrites⟩ :=
      mem_triples_iff.1 ((h.mem_writes hb).2 ⟨name, rfl, hwrite⟩)
    refine ⟨e, he, hreads, h.isEffect_iff.2 ⟨a, ha, hsource⟩, effectId b.id, ?_, ?_, by rw [hsource]⟩
    · simp only [writersOf, List.mem_map, List.mem_filter, Bool.and_eq_true, decide_eq_true_eq]
      exact ⟨w, ⟨hw, ⟨hwrites, h.isEffect_iff.2 ⟨b, hb, hsource'⟩⟩, by rw [htarget, htarget']⟩, hsource'⟩
    · rw [hsource]
      exact fun heq => hne (effectId_inj.1 heq.symm)

/-! ### Graphs that are up to date -/

/-- The graph shows the content, links the effects that feed each other if links are wanted, and
marks the nodes on cycles. -/
structure Current (linked : Bool) (r : Content) (g : Graph) : Prop where
  shows : Shows linked r g
  chained : ∀ a ∈ r.effects, ∀ b ∈ r.effects,
    (effectId a.id, effectId b.id, EdgeType.dependsOn) ∈ g.triples ↔ linked = true ∧ r.Feeds a b
  marked : ∀ n ∈ g.nodes, n.inCycle = true ↔ Relation.TransGen g.Adj n.id n.id

theorem Content.Holds.mark {n : Node} (hn : r.Holds n) (mark : Bool) :
    r.Holds { n with inCycle := mark } := by
  cases hn with
  | ofVariable name _ => exact .ofVariable name mark
  | ofEntity labels ref _ => exact .ofEntity labels ref mark
  | ofCondition hc _ => exact .ofCondition hc mark
  | ofEffect he _ => exact .ofEffect he mark

theorem Shows.markCycles (h : Shows linked r g) : Shows linked r g.markCycles where
  wellFormed := by
    refine ⟨?_, h.wellFormed.triples_nodup, ?_, ?_⟩ <;> rw [ids_markCycles]
    · exact h.wellFormed.ids_nodup
    · exact h.wellFormed.source_mem
    · exact h.wellFormed.target_mem
  effect_unique := h.effect_unique
  node n hn := by
    obtain ⟨old, hold, rfl⟩ := List.mem_map.1 hn
    exact (h.node old hold).mark _
  sound := h.sound
  complete := h.complete

/-- Two effects of a graph without links are not joined. -/
theorem Shows.not_chained (h : Shows false r g) {a b : Effect} (ha : a ∈ r.effects)
    (hb : b ∈ r.effects) : (effectId a.id, effectId b.id, EdgeType.dependsOn) ∉ g.triples := by
  intro hmem
  obtain ⟨e, he, hends⟩ := mem_triples_iff.1 hmem
  rcases h.sound e he with hstates | ⟨hlinked, -⟩
  · exact hstates.not_chains ⟨a, ha, b, hb, hends⟩
  · cases hlinked

theorem yields_linkWriteChains (h : Shows linked r g) :
    ∃ g', Yields linkWriteChains g () g' ∧ Shows true r g' ∧ (∀ n ∈ g'.nodes, n ∈ g.nodes) ∧
      ∀ a ∈ r.effects, ∀ b ∈ r.effects,
        (effectId a.id, effectId b.id, EdgeType.dependsOn) ∈ g'.triples ↔ r.Feeds a b := by
  have hbare := h.withoutChains
  obtain ⟨links, hlinks, hmem⟩ := hbare.chainLinks_eq
  have hfeeds : ∀ e ∈ links, ∃ a ∈ r.effects, ∃ b ∈ r.effects, r.Feeds a b ∧
      e.triple = (effectId a.id, effectId b.id, .dependsOn) := fun e he =>
    hbare.exists_linksTo_iff.1 ((hmem _).1 (List.mem_map_of_mem he))
  have hchains : ∀ e ∈ links, r.Chains e := by
    intro e he
    obtain ⟨a, ha, b, hb, -, htriple⟩ := hfeeds e he
    exact ⟨a, ha, b, hb, Edge.triple_eq_iff.1 htriple⟩
  have hends : ∀ e ∈ links, e.source ∈ g.withoutChains.ids ∧ e.target ∈ g.withoutChains.ids := by
    intro e he
    obtain ⟨a, ha, b, hb, hsource, htarget, -⟩ := hchains e he
    rw [hsource, htarget]
    exact ⟨hbare.effectId_mem.2 ⟨a, ha, rfl⟩, hbare.effectId_mem.2 ⟨b, hb, rfl⟩⟩
  have hgrows : Grows (fun _ => False) (· ∈ links) g.withoutChains (g.withoutChains.addEdges links) :=
    grows_addEdges fun _ he => he
  refine ⟨g.withoutChains.addEdges links,
    (Yields.modify _ g).bind ((Yields.get _).bind ((Yields.liftExcept hlinks).bind (.modify _ _))),
    ⟨hgrows.wellFormed hbare.wellFormed, h.effect_unique, ?_, ?_, ?_⟩,
    fun n hn => (hgrows.new_node n hn).elim id False.elim, ?_⟩
  · exact fun n hn => (hgrows.new_node n hn).elim (hbare.node n) False.elim
  · intro e he
    rcases hgrows.new_edge e he with he | he
    · exact .inl ((hbare.sound e he).resolve_right fun hlinked => Bool.noConfusion hlinked.1)
    · exact .inr ⟨rfl, hchains e he⟩
  · exact fun e he => hgrows.triples (hbare.complete e he)
  · intro a ha b hb
    constructor
    · intro hmem
      obtain ⟨e, he, htriple⟩ := List.mem_map.1 hmem
      rcases hgrows.new_edge e he with he | he
      · exact absurd (htriple ▸ List.mem_map_of_mem he) (hbare.not_chained ha hb)
      · obtain ⟨a', ha', b', hb', hab, htriple'⟩ := hfeeds e he
        simp only [htriple, Prod.mk.injEq, effectId_inj] at htriple'
        rwa [h.effect_unique a ha a' ha' htriple'.1, h.effect_unique b hb b' hb' htriple'.2.1]
    · intro hab
      obtain ⟨e, he, htriple⟩ := List.mem_map.1
        ((hmem _).2 (hbare.exists_linksTo_iff.2 ⟨a, ha, b, hb, hab, rfl⟩))
      exact htriple ▸ mem_triples_addEdges hends e he

/-- Links and marks are brought up to date, and the nodes stay what they were. -/
theorem yields_refresh (h : Shows linked r g) :
    ∃ g', Yields (refresh linked) g () g' ∧ Current linked r g' ∧
      ∀ n ∈ g'.nodes, ∃ old ∈ g.nodes, n.id = old.id ∧ n.type = old.type := by
  have hmarked : ∀ g' : Graph, ∀ n ∈ g'.markCycles.nodes, ∃ old ∈ g'.nodes,
      n.id = old.id ∧ n.type = old.type := by
    intro g' n hn
    obtain ⟨old, hold, rfl⟩ := List.mem_map.1 hn
    exact ⟨old, hold, rfl, rfl⟩
  cases linked with
  | true =>
      obtain ⟨g', hlinks, hshows, hnodes, hchained⟩ := yields_linkWriteChains h
      refine ⟨g'.markCycles, hlinks.bind (.modify _ _), ⟨hshows.markCycles, ?_, ?_⟩, fun n hn => ?_⟩
      · exact fun a ha b hb => (hchained a ha b hb).trans (by simp)
      · exact fun n hn => inCycle_markCycles hshows.wellFormed hn
      · obtain ⟨old, hold, hsame⟩ := hmarked g' n hn
        exact ⟨old, hnodes old hold, hsame⟩
  | false =>
      refine ⟨g.markCycles, .modify _ g, ⟨h.markCycles, ?_, ?_⟩, hmarked g⟩
      · intro a ha b hb
        exact ⟨fun hmem => absurd hmem (h.not_chained ha hb), fun hlinked => by cases hlinked.1⟩
      · exact fun n hn => inCycle_markCycles h.wellFormed hn

/-- The edges are those that the content states, and the links. -/
theorem Current.mem_triples (h : Current linked r g) {t : Bytes × Bytes × EdgeType} :
    t ∈ g.triples ↔ (∃ e, r.States e ∧ e.triple = t) ∨
      linked = true ∧ ∃ a ∈ r.effects, ∃ b ∈ r.effects,
        r.Feeds a b ∧ (effectId a.id, effectId b.id, .dependsOn) = t := by
  constructor
  · intro hmem
    obtain ⟨e, he, rfl⟩ := List.mem_map.1 hmem
    rcases h.shows.sound e he with hstates | ⟨-, a, ha, b, hb, hsource, htarget, htype⟩
    · exact .inl ⟨e, hstates, rfl⟩
    · rw [Edge.triple, hsource, htarget, htype] at hmem ⊢
      obtain ⟨hlinked, hfeeds⟩ := (h.chained a ha b hb).1 hmem
      exact .inr ⟨hlinked, a, ha, b, hb, hfeeds, rfl⟩
  · rintro (⟨e, he, rfl⟩ | ⟨hlinked, a, ha, b, hb, hfeeds, rfl⟩)
    · exact h.shows.complete e he
    · exact (h.chained a ha b hb).2 ⟨hlinked, hfeeds⟩

theorem yields_ofRecords (conditions : List Condition) (effects : List Effect)
    (entities : List Entity) :
    ∃ g', (GraphBuild.ofRecords linked conditions effects entities).graph = g' ∧
      Current linked (.ofRecords conditions effects) g' ∧
      ∀ n ∈ g'.nodes, ∃ old ∈ (unlinked conditions effects entities).nodes,
        n.id = old.id ∧ n.type = old.type := by
  obtain ⟨g', hrefresh, hcurrent⟩ := yields_refresh (shows_unlinked conditions effects entities)
  exact ⟨g', congrArg Prod.snd hrefresh, hcurrent⟩

/-- A built graph is up to date. -/
theorem current_ofRecords (conditions : List Condition) (effects : List Effect)
    (entities : List Entity) :
    Current linked (.ofRecords conditions effects)
      (GraphBuild.ofRecords linked conditions effects entities).graph := by
  obtain ⟨g', rfl, hcurrent, -⟩ := yields_ofRecords conditions effects entities
  exact hcurrent

/-- Nothing in a built graph is without edges that need not be there. -/
theorem attached_ofRecords (conditions : List Condition) (effects : List Effect)
    (entities : List Entity) :
    Attached (GraphBuild.ofRecords linked conditions effects entities).graph := by
  obtain ⟨g', rfl, hcurrent, hnodes⟩ := yields_ofRecords conditions effects entities
  intro n hn htype
  obtain ⟨old, hold, hid, hsame⟩ := hnodes n hn
  obtain ⟨e, he, hat⟩ := attached_unlinked conditions effects entities old hold (hsame ▸ htype)
  have hbare : Shows false (.ofRecords conditions effects) (unlinked conditions effects entities) :=
    shows_unlinked conditions effects entities
  have hstates := (hbare.sound e he).resolve_right fun hlinked => Bool.noConfusion hlinked.1
  obtain ⟨e', he', hsource, htarget, -⟩ := mem_triples_iff.1 (hcurrent.shows.complete e hstates)
  exact ⟨e', he', by rwa [hsource, htarget, hid]⟩

end CampaignRules.Graph
