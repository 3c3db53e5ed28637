import CampaignRules.Proofs.Engine.Refusal

/-! # Resolutions and graphs see the same records

A resolution looks for effects and guards in all records, and the graph of a scope is made of the
records of the scope. Both come to the same about an effect that is in the scope of the entity with its
guard, unless another record of the scope passes for one of them. -/

namespace CampaignRules

open CampaignRules.Graph

namespace Snapshot

theorem id_of_condition? {source : Snapshot} {id : Bytes} {c : Condition}
    (hfound : source.condition? id = some c) : c.id = id := by
  simpa using List.find?_some hfound

/-- The effect is one of the scope, with an id and with an owner that has both an id and a type. -/
structure Lists (source : Snapshot) (campaign branch : Bytes) (e : Effect) : Prop where
  mem : e ∈ source.effectsIn campaign branch
  named : e.id ≠ []
  owned : e.owner.type ≠ [] ∧ e.owner.id ≠ []

/-- The effect of a scope that the node with an id is made of: the first one that can have a node. -/
def effectIn? (source : Snapshot) (campaign branch id : Bytes) : Option Effect :=
  (source.effectsIn campaign branch).find? fun e => e.isActive && (usableEffect e && e.id = id)

/-- Nothing else in the scope is taken for the effect or for its guard: the node with the id of the
effect is made of it, and its guard is the only condition with its id. -/
structure TellsApart (source : Snapshot) (campaign branch : Bytes) (e : Effect) : Prop where
  effect : source.effectIn? campaign branch e.id = some e
  guard : ∀ c, e.guardId = some c.id → source.condition? c.id = some c →
    c.id ≠ [] ∧ c ∈ source.conditionsIn campaign branch ∧
      ∀ other ∈ source.conditionsIn campaign branch, other.id = c.id → other = c

variable {source : Snapshot} {campaign branch : Bytes} {e : Effect}

/-- The id of an effect that can have a node has one, be it made of that effect or of another. -/
theorem exists_effect_of_mem (hmem : e ∈ source.effectsIn campaign branch) (hactive : e.isActive = true)
    (husable : usableEffect e = true) :
    ∃ shown ∈ (source.contentIn campaign branch).effects, shown.id = e.id := by
  cases hfind : source.effectIn? campaign branch e.id with
  | none =>
      have hnone := List.find?_eq_none.1 hfind e hmem
      simp [hactive, husable] at hnone
  | some shown => exact ⟨shown, find?_eq_some_iff_kept.1 hfind⟩

/-- The guard reads of the graph are those of the condition that a search in all records finds. -/
theorem TellsApart.mem_guarded (h : source.TellsApart campaign branch e) {name : Bytes} :
    name ∈ (source.contentIn campaign branch).guarded e ↔
      ∃ c, e.guardId.bind (source.condition? ·) = some c ∧ name ∈ activeReads c := by
  show name ∈ Content.guardVariables (source.conditionsIn campaign branch) e ↔ _
  cases hfound : e.guardId.bind (source.condition? ·) with
  | some c =>
      obtain ⟨id, hguard, hcondition⟩ := Option.bind_eq_some_iff.1 hfound
      obtain rfl := id_of_condition? hcondition
      obtain ⟨hnamed, hmem, honly⟩ := h.guard c hguard hcondition
      rw [Content.guardVariables_of_only hmem honly hnamed hguard]
      simp
  | none =>
      rw [Content.guardVariables_of_forall_ne fun c hc hguard => ?_]
      · simp
      · rw [hguard, Option.bind_some, condition?, List.find?_eq_none] at hfound
        exact hfound c (List.mem_filter.1 hc).1 (decide_eq_true rfl)

end Snapshot

namespace GraphCache

variable {campaign branch : Bytes} {build : Bytes → Bytes → GraphBuild × List Log.Event}
  {cache : GraphCache}

theorem getOrBuild_of_peek {found : GraphBuild} (hpeek : cache.peek campaign branch = some found) :
    (cache.getOrBuild campaign branch build).build = found := by
  rw [getOrBuild, hpeek]

/-- The graph that was given is in the cache. -/
theorem peek_getOrBuild : (cache.getOrBuild campaign branch build).cache.peek campaign branch =
    some (cache.getOrBuild campaign branch build).build := by
  rw [getOrBuild]
  cases hpeek : cache.peek campaign branch with
  | some found => exact hpeek
  | none => exact List.lookup_cons_self

end GraphCache

/-- The guard of an effect is active and well-formed, and reads the variable. -/
def Setting.GuardReads (setting : Setting) (e : Effect) (name : Bytes) : Prop :=
  ∃ c expr, e.guardId.bind setting.guard? = some c ∧ c.isActive = true ∧
    Expr.ofJson c.expression = .ok expr ∧ name ∈ expr.reads

namespace Engine

variable {engine : Engine} {entity : Entity} {cyclic : List Bytes} {extra : Json}

theorem mem_guardsOf {effects : List Effect} {c : Condition} : c ∈ engine.guardsOf effects ↔
    (∃ e ∈ effects, e.guardId = some c.id) ∧ engine.source.condition? c.id = some c := by
  simp only [guardsOf, List.mem_filterMap, List.mem_eraseDups]
  constructor
  · rintro ⟨id, ⟨e, he, hguard⟩, hfound⟩
    obtain rfl := Snapshot.id_of_condition? hfound
    exact ⟨⟨e, he, hguard⟩, hfound⟩
  · rintro ⟨⟨e, he, hguard⟩, hfound⟩
    exact ⟨c.id, ⟨e, he, hguard⟩, hfound⟩

/-- Guards are found as in all records. -/
theorem guard?_settingFor {e : Effect} (he : e ∈ engine.source.effectsOf entity.ref) :
    e.guardId.bind (engine.settingFor entity cyclic extra).guard? =
      e.guardId.bind (engine.source.condition? ·) := by
  refine Option.bind_congr fun id hguard => ?_
  rw [Setting.guard?]
  cases hfound : engine.source.condition? id with
  | none =>
      rw [List.find?_eq_none]
      intro c hc hid
      obtain ⟨-, hother⟩ := mem_guardsOf.1 (List.mem_reverse.1 hc)
      rw [of_decide_eq_true hid, hfound] at hother
      cases hother
  | some c =>
      obtain rfl := Snapshot.id_of_condition? hfound
      have hc : c ∈ engine.guardsOf (engine.source.effectsOf entity.ref) :=
        mem_guardsOf.2 ⟨⟨e, he, hguard⟩, hfound⟩
      refine find?_eq_some_of_only (List.mem_reverse.2 hc) (decide_eq_true rfl) fun d hd hid => ?_
      obtain ⟨-, hother⟩ := mem_guardsOf.1 (List.mem_reverse.1 hd)
      rw [of_decide_eq_true hid, hfound] at hother
      exact (Option.some.inj hother).symm

theorem outcome_dependencyGraph (engine : Engine) (campaign branch : Bytes) :
    (dependencyGraph campaign branch engine).2.outcome =
      .ok (engine.cache.getOrBuild (engine.campaignOr campaign) (engine.branchOr branch)
        engine.buildGraph).build := rfl

/-- A graph that was asked for is given again. -/
theorem outcome_dependencyGraph_again (engine : Engine) (campaign branch : Bytes) :
    (dependencyGraph campaign branch (dependencyGraph campaign branch engine).1).2.outcome =
      (dependencyGraph campaign branch engine).2.outcome := by
  rw [outcome_dependencyGraph, outcome_dependencyGraph]
  exact congrArg Except.ok (GraphCache.getOrBuild_of_peek (GraphCache.peek_getOrBuild ..))

/-- A resolution leaves the engine as it was, up to a graph that it asks for. -/
theorem state_resolve {ref : EntityRef} {action : CoreAction}
    (hentity : engine.source.entity? ref = some entity) :
    (resolve ref action extra engine).1 =
      if engine.options.refuseCyclicWrites then
        (dependencyGraph entity.campaignId entity.branchId engine).1
      else engine := by
  have hcyclic : (cyclicEffects entity engine).1 =
      if engine.options.refuseCyclicWrites then
        (dependencyGraph entity.campaignId entity.branchId engine).1
      else engine := by
    rw [cyclicEffects, Task.state_state_bind]
    split
    · exact Task.state_bind_of_kept _ _ _ fun _ => rfl
    · rfl
  rw [resolve, Task.state_state_bind]
  simp only [hentity]
  rw [← hcyclic]
  exact Task.state_bind_of_kept _ _ _ fun _ => rfl

/-- A resolution changes no graph that is asked for later. -/
theorem outcome_dependencyGraph_after {ref : EntityRef} {action : CoreAction}
    (hentity : engine.source.entity? ref = some entity) :
    (dependencyGraph entity.campaignId entity.branchId (resolve ref action extra engine).1).2.outcome =
      (dependencyGraph entity.campaignId entity.branchId engine).2.outcome := by
  rw [state_resolve hentity]
  split
  · exact outcome_dependencyGraph_again engine entity.campaignId entity.branchId
  · rfl

/-! ### Agreement -/

/-- The guard reads of an effect are the same for a resolution and for the graph. -/
theorem mem_guarded_iff {e : Effect} {campaign branch : Bytes}
    (he : e ∈ engine.source.effectsOf entity.ref) (hapart : engine.source.TellsApart campaign branch e)
    {name : Bytes} : name ∈ (engine.source.contentIn campaign branch).guarded e ↔
      (engine.settingFor entity cyclic extra).GuardReads e name := by
  rw [hapart.mem_guarded, Setting.GuardReads, guard?_settingFor he]
  simp only [mem_activeReads, exists_and_left]

/-- Whatever effect a resolution tries has a node in the graph of the scope of the entity, if its patch
is valid and the scope lists it. The effect reads there what its patch reads and what the guard reads
that the resolution finds for it, if the scope tells both apart. It does not matter whether the graph
is asked for before or after the resolution. -/
theorem resolution_agrees_with_graph (options : Options) (registry : Registry) (source : Snapshot)
    {ref : EntityRef} {entity : Entity} (hentity : source.entity? ref = some entity)
    (action : CoreAction) (extra : Json) :
    let engine := ofSnapshot options registry source
    let setting := fun cyclic => engine.settingFor entity cyclic extra
    let campaign := engine.campaignOr entity.campaignId
    let branch := engine.branchOr entity.branchId
    (∀ r, (resolve ref action extra engine).2.outcome = .ok r →
      ∃ cyclic, ∀ s ∈ r.summaries, ∃ working after,
        Resolution.Attempts (setting cyclic) working
          (Resolution.select (setting cyclic).effects working.ref s.phase) s.outcomes after) ∧
    ∀ state ∈ [engine, (resolve ref action extra engine).1], ∃ build,
      (dependencyGraph entity.campaignId entity.branchId state).2.outcome = .ok build ∧
      ∀ cyclic owner phase, ∀ e ∈ Resolution.select (setting cyclic).effects owner phase,
        (Patch.check e.payload e.owner.type).problems = [] → source.Lists campaign branch e →
        effectId e.id ∈ build.graph.idsOf .effect ∧
        (source.TellsApart campaign branch e → ∀ v,
          (effectId e.id, v, .reads) ∈ build.graph.triples ↔ ∃ name, v = variableId name ∧
            (name ∈ Patch.reads e.payload ∨ (setting cyclic).GuardReads e name)) := by
  intro engine setting campaign branch
  refine ⟨fun r hresolve => ?_, fun state hstate => ?_⟩
  · rw [outcome_resolve_of_entity hentity] at hresolve
    obtain ⟨cyclic, -, hrun⟩ := bind_eq_ok.1 hresolve
    exact ⟨cyclic, Resolution.exists_attempts_of_resolve hrun⟩
  · have hasked : (dependencyGraph entity.campaignId entity.branchId state).2.outcome =
        .ok (engine.buildGraph campaign branch).1 := by
      rcases List.mem_pair.1 hstate with rfl | rfl
      · rfl
      · exact outcome_dependencyGraph_after hentity
    have hgraph : Current options.linkWriteChains (source.contentIn campaign branch)
        (engine.buildGraph campaign branch).1.graph := current_ofRecords _ _ _
    refine ⟨_, hasked, fun cyclic owner phase e he hvalid hlisted => ?_⟩
    obtain ⟨howned, hactive, -⟩ := Resolution.mem_select.1 he
    refine ⟨?_, fun hapart v => ?_⟩
    · have husable : usableEffect e = true := by
        simp [usableEffect, hvalid, hlisted.named, hlisted.owned]
      obtain ⟨shown, hshown, hid⟩ := Snapshot.exists_effect_of_mem hlisted.mem hactive husable
      exact hgraph.shows.mem_idsOf_effect.2 ⟨shown, hshown, congrArg effectId hid.symm⟩
    · have hmem : e ∈ (source.contentIn campaign branch).effects :=
        (find?_eq_some_iff_kept.1 hapart.effect).1
      have hguarded : ∀ name, name ∈ (source.contentIn campaign branch).guarded e ↔
          (setting cyclic).GuardReads e name := fun _ => mem_guarded_iff howned hapart
      rw [hgraph.shows.mem_reads hmem]
      exact exists_congr fun name => and_congr_right fun _ =>
        or_comm.trans (or_congr_right (hguarded name))

/-- At the ford there may be two effects and two conditions with the same ids, if they are of another
branch. -/
theorem resolution_agrees_with_graph_ford :
    let owner : EntityRef := ⟨EntityRef.encounter, "ford"⟩
    let flood : Condition := ⟨"flood", EntityRef.encounter, none, "isFlooded",
      .object [("var", "rain")], [], 0, true, 1, [], "main"⟩
    let drown : Effect := ⟨"drown", "drown", owner, .pre, 0, .array [.object [("op", "copy"),
      ("from", "/variables/boats"), ("path", "/variables/losses")]], true, some "flood", [], [], "main"⟩
    let melt : Condition := { flood with expression := .object [("var", "snow")], branchId := "draft" }
    let sink : Effect := { drown with owner := ⟨EntityRef.encounter, "lake"⟩, branchId := "draft" }
    let ford : Entity := ⟨owner, "north", "main",
      .object [("variables", .object [("boats", .unsigned 3), ("rain", .unsigned 1)])]⟩
    let engine := ofSnapshot {} .empty ⟨[], [flood, melt], [sink, drown], [ford], []⟩
    let resolved := resolve owner (.resolveEncounter ⟨0⟩) .null engine
    resolved.2.outcome.toOption.any (fun r => r.pre.any (·.succeeded = 1)) ∧
      ∃ build, (dependencyGraph "north" "main" resolved.1).2.outcome = .ok build ∧
        effectId "drown" ∈ build.graph.idsOf .effect ∧
        ∀ v, (effectId "drown", v, .reads) ∈ build.graph.triples ↔
          v = variableId "boats" ∨ v = variableId "rain" := by
  intro owner flood drown melt sink ford engine resolved
  have hentity : engine.source.entity? owner = some ford := List.find?_cons_of_pos (by decide)
  obtain ⟨-, hagree⟩ := resolution_agrees_with_graph {} .empty engine.source hentity
    (.resolveEncounter ⟨0⟩) .null
  obtain ⟨build, hbuild, hall⟩ := hagree resolved.1 (.tail _ (.head _))
  have hselected : drown ∈ Resolution.select (engine.settingFor ford [] .null).effects owner .pre :=
    Resolution.mem_select.2 ⟨List.mem_filter.2 ⟨.tail _ (.head _), by decide⟩, rfl, rfl, rfl⟩
  have heffects : engine.source.effectsIn "north" "main" = [drown] := rfl
  have hconditions : engine.source.conditionsIn "north" "main" = [flood] := rfl
  have hlisted : engine.source.Lists "north" "main" drown :=
    ⟨heffects ▸ .head _, by decide, by decide⟩
  have hapart : engine.source.TellsApart "north" "main" drown := by
    refine ⟨?_, fun c hguard hfound => ?_⟩
    · rw [Snapshot.effectIn?, heffects]
      exact List.find?_cons_of_pos (by decide +kernel)
    · have hflood : engine.source.condition? flood.id = some flood := rfl
      rw [← Option.some.inj hguard, hflood] at hfound
      obtain rfl := Option.some.inj hfound
      exact ⟨by decide, hconditions ▸ .head _, hconditions ▸ by simp⟩
  have hpatch : Patch.reads drown.payload = [("boats" : Bytes)] := by decide +kernel
  have hguard : ∀ name, (engine.settingFor ford [] .null).GuardReads drown name ↔ name = "rain" := by
    have hfound : drown.guardId.bind (engine.settingFor ford [] .null).guard? = some flood := rfl
    have hrain : Expr.ofJson flood.expression = .ok (.var "rain" none) := rfl
    intro name
    constructor
    · rintro ⟨c, expr, hc, -, hexpr, hname⟩
      obtain rfl := Option.some.inj (hfound.symm.trans hc)
      obtain rfl := Except.ok.inj (hrain.symm.trans hexpr)
      exact List.mem_singleton.1 hname
    · rintro rfl
      exact ⟨flood, _, hfound, rfl, hrain, List.mem_singleton.2 rfl⟩
  obtain ⟨hnode, hreads⟩ := hall [] owner .pre drown hselected (by decide +kernel) hlisted
  refine ⟨by decide +kernel, build, hbuild, hnode, fun v => (hreads hapart v).trans ⟨?_, ?_⟩⟩
  · rintro ⟨name, rfl, hname | hname⟩
    · exact .inl (congrArg variableId (List.mem_singleton.1 (hpatch ▸ hname)))
    · exact .inr (congrArg variableId ((hguard name).1 hname))
  · rintro (rfl | rfl)
    · exact ⟨_, rfl, .inl (hpatch ▸ .head _)⟩
    · exact ⟨_, rfl, .inr ((hguard _).2 rfl)⟩

/-- Boats are drowned although the graph has no node for that, if the effect is of another campaign or
branch than the entity, if it has the empty id or an owner without type or id, or if neither record has
a branch and the engine has one by default. And they are drowned by rain that the graph does not know
of, if the guard is of another branch or has the empty id, if a later condition has its id, or if an
earlier effect has that of the effect. -/
theorem resolution_apart_from_graph :
    let owner : EntityRef := ⟨EntityRef.encounter, "ford"⟩
    let flood : Condition := ⟨"flood", EntityRef.encounter, none, "isFlooded",
      .object [("var", "rain")], [], 0, true, 1, [], "main"⟩
    let drown : Effect := ⟨"drown", "drown", owner, .pre, 0, .array [.object [("op", "copy"),
      ("from", "/variables/boats"), ("path", "/variables/losses")]], true, some "flood", [], [], "main"⟩
    let ford : Entity := ⟨owner, "north", "main",
      .object [("variables", .object [("boats", .unsigned 3), ("rain", .unsigned 1)])]⟩
    let melt : Condition := { flood with expression := .object [("var", "snow")] }
    let sink : Effect := { drown with owner := ⟨EntityRef.encounter, "lake"⟩, guardId := none }
    let nodeless : List (Effect × Entity) :=
      [({ drown with campaignId := "south" }, ford),
        ({ drown with branchId := "draft" }, ford),
        ({ drown with id := "" }, ford),
        ({ drown with owner := ⟨"", "ford"⟩ }, { ford with ref := ⟨"", "ford"⟩ }),
        ({ drown with owner := ⟨EntityRef.encounter, ""⟩ }, { ford with ref := ⟨EntityRef.encounter, ""⟩ }),
        ({ drown with branchId := "" }, { ford with branchId := "" })]
    let misread : List (List Condition × List Effect × Effect) :=
      [([{ flood with branchId := "draft" }], [], drown),
        ([{ flood with id := "" }], [], { drown with guardId := some "" }),
        ([flood, melt], [], drown),
        ([flood], [sink], drown)]
    let drowns : Effect → Resolution → Bool := fun e r =>
      r.pre.any (·.outcomes.any fun o => o.effectId = e.id && o.fate.isApplied)
    (∀ sample ∈ nodeless,
      let (e, entity) := sample
      let engine := ofSnapshot {} .empty ⟨[], [flood], [e], [entity], []⟩
      (Patch.check e.payload e.owner.type).problems.isEmpty = true ∧
        (∃ r, (resolve entity.ref (.resolveEncounter ⟨0⟩) .null engine).2.outcome = .ok r ∧ drowns e r) ∧
        ∃ build, (dependencyGraph entity.campaignId entity.branchId engine).2.outcome = .ok build ∧
          effectId e.id ∉ build.graph.idsOf .effect) ∧
    ∀ sample ∈ misread,
      let (conditions, others, e) := sample
      let engine := ofSnapshot {} .empty ⟨[], conditions, others ++ [e], [ford], []⟩
      (Patch.check e.payload e.owner.type).problems.isEmpty = true ∧
        (∃ r, (resolve owner (.resolveEncounter ⟨0⟩) .null engine).2.outcome = .ok r ∧ drowns e r) ∧
        (engine.settingFor ford [] .null).GuardReads e "rain" ∧
        ∃ build, (dependencyGraph ford.campaignId ford.branchId engine).2.outcome = .ok build ∧
          (effectId e.id, variableId "rain", .reads) ∉ build.graph.triples := by
  intro owner flood drown ford melt sink nodeless misread drowns
  simp only [nodeless, misread, List.forall_mem_cons]
  refine ⟨⟨?_, ?_, ?_, ?_, ?_, ?_, fun _ h => absurd h List.not_mem_nil⟩,
    ?_, ?_, ?_, ?_, fun _ h => absurd h List.not_mem_nil⟩
  iterate 6
    exact ⟨by decide +kernel, exists_ok_of_any _ _ (by decide +kernel), _, rfl, by decide +kernel⟩
  all_goals
    exact ⟨by decide +kernel, exists_ok_of_any _ _ (by decide +kernel),
      ⟨_, .var "rain" none, rfl, rfl, rfl, List.mem_singleton.2 rfl⟩, _, rfl, by decide +kernel⟩

end Engine

end CampaignRules
