import CampaignRules.Engine
import CampaignRules.Proofs.Failure
import CampaignRules.Proofs.Graph.Loops
import CampaignRules.Proofs.Graph.Rebuild
import CampaignRules.Proofs.Resolution.Attempt
import CampaignRules.Proofs.Task

/-! # Refusal of cyclic writes

An engine that refuses cyclic writes looks for them in the graph of the scope that the entity is in.
With links between effects the graph has a cycle wherever effects feed each other in a loop, and
whatever is on a cycle fails each time it is tried, in all phases. -/

namespace CampaignRules

open CampaignRules.Graph

namespace Resolution

variable {setting : Setting} {entity after : Entity} {effect : Effect}

theorem judge_of_mem_cyclic (hrefuse : setting.refuseCyclic = true) (hmem : effect.id ∈ setting.cyclic)
    (entity : Entity) : judge setting entity effect = .ok (.fail (refusal effect)) := by
  rw [judge, hrefuse, List.contains_iff_mem.2 hmem]
  rfl

theorem Attempt.fate_of_mem_cyclic {outcome : EffectOutcome}
    (h : Attempt setting entity effect outcome after) (hrefuse : setting.refuseCyclic = true)
    (hmem : effect.id ∈ setting.cyclic) : outcome.fate = .failed (refusal effect) := by
  have hjudged := judge_of_mem_cyclic hrefuse hmem entity
  cases h with
  | refused hjudge =>
      cases hjudged.symm.trans hjudge
      rfl
  | applied hjudge _ | skipped hjudge | failed hjudge _ _ => cases hjudged.symm.trans hjudge

/-- The refusal names the effect by its id. -/
theorem Attempts.fate_of_mem_cyclic {effects : List Effect} {outcomes : List EffectOutcome}
    (h : Attempts setting entity effects outcomes after) (hrefuse : setting.refuseCyclic = true)
    (hmem : effect.id ∈ setting.cyclic) :
    ∀ o ∈ outcomes, o.effectId = effect.id → o.fate = .failed (refusal effect) := by
  induction h with
  | nil => exact fun _ ho => absurd ho List.not_mem_nil
  | cons hfirst _ ih =>
      refine List.forall_mem_cons.2 ⟨fun hid => ?_, ih⟩
      have hsame := hfirst.effectId.symm.trans hid
      rw [hfirst.fate_of_mem_cyclic hrefuse (hsame ▸ hmem), refusal, hsame, ← refusal]

/-- In no phase of a resolution is an effect on a cycle anything but refused. -/
theorem refused_of_mem_cyclic {act : CoreAction} {r : Resolution}
    (hresolve : (resolve setting act entity).outcome = .ok r) (hrefuse : setting.refuseCyclic = true)
    (hmem : effect.id ∈ setting.cyclic) :
    ∀ s ∈ r.summaries, ∀ o ∈ s.outcomes, o.effectId = effect.id → o.fate = .failed (refusal effect) := by
  intro s hs
  obtain ⟨_, _, hattempts⟩ := exists_attempts_of_resolve hresolve s hs
  exact hattempts.fate_of_mem_cyclic hrefuse hmem

end Resolution

namespace Snapshot

variable {source : Snapshot} {campaign branch : Bytes} {a b : Effect}

/-- The effect belongs to the scope, is active and has a patch that can be used. -/
def IsActing (source : Snapshot) (campaign branch : Bytes) (e : Effect) : Prop :=
  e ∈ source.effectsIn campaign branch ∧ e.isActive = true ∧ usableEffect e = true

/-- The effect reads the variable through its patch, or through an active guard of the scope. -/
def Consults (source : Snapshot) (campaign branch : Bytes) (e : Effect) (name : Bytes) : Prop :=
  name ∈ Patch.reads e.payload ∨
    ∃ c ∈ source.conditionsIn campaign branch, c.id ≠ [] ∧ e.guardId = some c.id ∧ name ∈ activeReads c

/-- One effect reads a variable that another one writes. -/
structure ReadsFrom (source : Snapshot) (campaign branch : Bytes) (a b : Effect) : Prop where
  reader : source.IsActing campaign branch a
  writer : source.IsActing campaign branch b
  distinct : a ≠ b
  shared : ∃ name, source.Consults campaign branch a name ∧ name ∈ Patch.writes b.payload

/-- What the graph of a scope says. -/
def contentIn (source : Snapshot) (campaign branch : Bytes) : Content :=
  .ofRecords (source.conditionsIn campaign branch) (source.effectsIn campaign branch)

theorem ReadsFrom.feeds (h : source.ReadsFrom campaign branch a b)
    (hconditions : (source.conditions.map (·.id)).Nodup)
    (heffects : (source.effects.map (·.id)).Nodup) :
    a ∈ (source.contentIn campaign branch).effects ∧ b ∈ (source.contentIn campaign branch).effects ∧
      (source.contentIn campaign branch).Feeds a b := by
  have hconditionsIn : ((source.conditionsIn campaign branch).map (·.id)).Nodup :=
    hconditions.sublist (List.filter_sublist.map _)
  have heffectsIn : ((source.effectsIn campaign branch).map (·.id)).Nodup :=
    heffects.sublist (List.filter_sublist.map _)
  obtain ⟨name, hread, hwrite⟩ := h.shared
  refine ⟨(Content.mem_effects_ofRecords heffectsIn).2 h.reader,
    (Content.mem_effects_ofRecords heffectsIn).2 h.writer,
    fun hid => h.distinct (List.inj_on_of_nodup_map heffectsIn h.reader.1 h.writer.1 hid),
    name, ?_, hwrite⟩
  rcases hread with hpatch | ⟨c, hc, hnamed, hguard, hname⟩
  · exact .inr hpatch
  · refine .inl ?_
    show name ∈ Content.guardVariables _ a
    rwa [Content.guardVariables_of_mem hconditionsIn hc hnamed hguard]

end Snapshot

namespace Engine

variable {options : Options} {registry : Registry} {source : Snapshot} {entity : Entity}

/-- What an engine resolves an entity with, given the effects on cycles. -/
def settingFor (engine : Engine) (entity : Entity) (cyclic : List Bytes) (extra : Json) : Setting where
  registry := engine.registry
  effects := engine.source.effectsOf entity.ref
  conditions := engine.guardsOf (engine.source.effectsOf entity.ref)
  cyclic
  refuseCyclic := engine.options.refuseCyclicWrites
  extra

theorem outcome_resolve_of_entity {engine : Engine} {ref : EntityRef}
    (hentity : engine.source.entity? ref = some entity) (action : CoreAction) (extra : Json) :
    (resolve ref action extra engine).2.outcome =
      (cyclicEffects entity engine).2.outcome.bind fun cyclic =>
        (Resolution.resolve (engine.settingFor entity cyclic extra) action entity).outcome := by
  have hstate : Task.state engine = (engine, pure engine) := rfl
  rw [resolve, Task.outcome_bind]
  simp only [hstate, Recorded.outcome_pure, Except.bind, hentity]
  exact Task.outcome_bind (cyclicEffects entity) _ engine

/-- What an engine that refuses cyclic writes, and has no graph yet, makes of an entity: the effects on
cycles are read off the graph that it builds for the scope of the entity. -/
theorem outcome_resolve (hrefuse : options.refuseCyclicWrites = true) {ref : EntityRef}
    (hentity : source.entity? ref = some entity) (action : CoreAction) (extra : Json) :
    let engine := ofSnapshot options registry source
    let build := (engine.buildGraph (engine.campaignOr entity.campaignId)
      (engine.branchOr entity.branchId)).1
    let effects := source.effectsOf entity.ref
    (resolve ref action extra engine).2.outcome = build.graph.cyclicEffects.bind fun cyclic =>
      (Resolution.resolve ⟨registry, effects, engine.guardsOf effects, cyclic, true, extra⟩ action
        entity).outcome := by
  intro engine build effects
  have hcyclic : (cyclicEffects entity engine).2.outcome = build.graph.cyclicEffects := by
    rw [cyclicEffects, Task.outcome_bind]
    show ((if options.refuseCyclicWrites then _ else _ : Task Engine (List Bytes)) engine).2.outcome = _
    rw [hrefuse]
    rfl
  have hsetting : ∀ cyclic, engine.settingFor entity cyclic extra =
      ⟨registry, effects, engine.guardsOf effects, cyclic, true, extra⟩ := by
    intro cyclic
    rw [← hrefuse]
    rfl
  rw [outcome_resolve_of_entity hentity, hcyclic]
  exact congrArg _ (funext fun cyclic => by rw [hsetting])

/-- A graph with links tells all effects on loops. -/
theorem mem_cyclicEffects_of_loop (engine : Engine)
    (hconditions : (engine.source.conditions.map (·.id)).Nodup)
    (heffects : (engine.source.effects.map (·.id)).Nodup)
    (hlink : engine.options.linkWriteChains = true) {campaign branch : Bytes} {e : Effect}
    (hloop : Relation.TransGen (engine.source.ReadsFrom campaign branch) e e) {cyclic : List Bytes}
    (hcyclic : (engine.buildGraph campaign branch).1.graph.cyclicEffects = .ok cyclic) :
    e.id ∈ cyclic := by
  have hgraph : Current true (engine.source.contentIn campaign branch)
      (engine.buildGraph campaign branch).1.graph := by
    rw [buildGraph, hlink]
    exact current_ofRecords _ _ _
  obtain ⟨ids, hids, hmem⟩ := hgraph.shows.cyclicEffects_eq
  cases hids.symm.trans hcyclic
  have hfeeds := fun a b (h : engine.source.ReadsFrom campaign branch a b) =>
    h.feeds hconditions heffects
  obtain ⟨next, hnext, -⟩ := Relation.TransGen.head'_iff.1 hloop
  exact (hmem e.id).2 ⟨e, (hfeeds e next hnext).1, rfl, hgraph.walk_of_chain hfeeds hloop⟩

/-- With links between effects, an engine that refuses cyclic writes applies no effect on a loop of
effects, each of which reads what the next one writes, in the scope of the entity: such an effect fails
each time it is tried. -/
theorem loops_refused (options : Options) (registry : Registry) (source : Snapshot)
    (hconditions : (source.conditions.map (·.id)).Nodup) (heffects : (source.effects.map (·.id)).Nodup)
    (hrefuse : options.refuseCyclicWrites = true) (hlink : options.linkWriteChains = true)
    {ref : EntityRef} {entity : Entity} (hentity : source.entity? ref = some entity)
    (action : CoreAction) (extra : Json) :
    let engine := ofSnapshot options registry source
    ∀ r, (resolve ref action extra engine).2.outcome = .ok r →
      ∀ e, Relation.TransGen (source.ReadsFrom (engine.campaignOr entity.campaignId)
        (engine.branchOr entity.branchId)) e e →
      ∀ s ∈ r.summaries, ∀ o ∈ s.outcomes, o.effectId = e.id →
        o.fate = .failed (Resolution.refusal e) := by
  intro engine r hresolve e hloop
  rw [outcome_resolve hrefuse hentity] at hresolve
  obtain ⟨cyclic, hcyclic, hrun⟩ := bind_eq_ok.1 hresolve
  have hmem : e.id ∈ cyclic :=
    mem_cyclicEffects_of_loop engine hconditions heffects hlink hloop hcyclic
  exact Resolution.refused_of_mem_cyclic hrun rfl hmem

/-- Baking uses grain for bread and sowing bread for grain, so neither is done. Feasting on the bread is
no part of the loop. -/
theorem loops_refused_mill :
    let owner : EntityRef := ⟨EntityRef.encounter, "mill"⟩
    let uses : Bytes → Phase → Bytes → Bytes → Effect := fun id phase place target =>
      ⟨id, id, owner, phase, 0, .array [.object [("op", "copy"), ("from", place), ("path", target)]],
        true, none, [], [], "main"⟩
    let bake := uses "bake" .pre "/variables/grain" "/variables/bread"
    let sow := uses "sow" .onResolve "/variables/bread" "/variables/grain"
    let feast := uses "feast" .post "/variables/bread" "/variables/joy"
    let mill : Entity := ⟨owner, [], "main",
      .object [("variables", .object [("bread", .unsigned 2), ("grain", .unsigned 1)])]⟩
    let options : Options := { refuseCyclicWrites := true }
    let source : Snapshot := ⟨[], [], [bake, sow, feast], [mill], []⟩
    ∃ r, (resolve owner (.resolveEncounter ⟨0⟩) .null (ofSnapshot options .empty source)).2.outcome =
        .ok r ∧
      r.post.map (·.succeeded) = some 1 ∧
      ∃ s ∈ r.summaries, ∃ o ∈ s.outcomes, o.effectId = bake.id ∧
        o.fate = .failed (Resolution.refusal bake) := by
  intro owner uses bake sow feast mill options source
  obtain ⟨r, hresolve, hr⟩ := exists_ok_of_any
    (resolve owner (.resolveEncounter ⟨0⟩) .null (ofSnapshot options .empty source)).2.outcome
    (fun r => r.post.map (·.succeeded) = some 1 &&
      r.summaries.any fun s => s.outcomes.any fun o => o.effectId = bake.id) (by decide +kernel)
  rw [Bool.and_eq_true, decide_eq_true_eq] at hr
  obtain ⟨s, hs, hany⟩ := List.any_eq_true.1 hr.2
  obtain ⟨o, ho, hid⟩ := List.any_eq_true.1 hany
  let campaign := (ofSnapshot options .empty source).campaignOr mill.campaignId
  let branch := (ofSnapshot options .empty source).branchOr mill.branchId
  have hscope : ∀ e ∈ source.effects,
      Snapshot.inScope campaign branch e.campaignId e.branchId = true ∧ e.isActive = true ∧
        usableEffect e = true := by decide +kernel
  have hacting : ∀ e ∈ source.effects, source.IsActing campaign branch e := fun e he =>
    ⟨List.mem_filter.2 ⟨he, (hscope e he).1⟩, (hscope e he).2⟩
  have hne : bake ≠ sow := fun heq => absurd (congrArg Effect.id heq) (by decide)
  have hbake : source.ReadsFrom campaign branch bake sow :=
    ⟨hacting _ (.head _), hacting _ (.tail _ (.head _)), hne, "grain", .inl (by decide), by decide⟩
  have hsow : source.ReadsFrom campaign branch sow bake :=
    ⟨hacting _ (.tail _ (.head _)), hacting _ (.head _), hne.symm, "bread", .inl (by decide), by decide⟩
  have hentity : source.entity? owner = some mill := List.find?_cons_of_pos (by decide)
  have hloop : Relation.TransGen (source.ReadsFrom campaign branch) bake bake :=
    .tail (.single hbake) hsow
  have hrefused := loops_refused options .empty source (by decide) (by decide) rfl rfl hentity
    (.resolveEncounter ⟨0⟩) .null r hresolve bake hloop s hs o ho (of_decide_eq_true hid)
  exact ⟨r, hresolve, hr.1, s, hs, o, ho, of_decide_eq_true hid, hrefused⟩

/-- The loop of baking and sowing is not seen if links are switched off, if the entity has no branch and
the engine has one by default, if the guard has the empty id, or if one of the two effects has the
empty id or an owner without id or type. Then there is baking. -/
theorem loop_applied :
    let owner : EntityRef := ⟨EntityRef.encounter, "mill"⟩
    let samples : List (Options × Bytes × Bytes × Bytes × EntityRef) :=
      [({ refuseCyclicWrites := true, linkWriteChains := false }, "main", "ripe", "sow", owner),
        ({ refuseCyclicWrites := true }, "", "ripe", "sow", owner),
        ({ refuseCyclicWrites := true }, "main", "", "sow", owner),
        ({ refuseCyclicWrites := true }, "main", "ripe", "", owner),
        ({ refuseCyclicWrites := true }, "main", "ripe", "sow", ⟨EntityRef.encounter, ""⟩),
        ({ refuseCyclicWrites := true }, "main", "ripe", "sow", ⟨"", "mill"⟩)]
    ∀ sample ∈ samples,
      let (options, branch, guardId, sowId, sowOwner) := sample
      let ripe : Condition := ⟨guardId, EntityRef.encounter, some "mill", "isRipe",
        .object [("var", "grain")], [], 0, true, 1, [], branch⟩
      let bake : Effect := ⟨"bake", "bake", owner, .pre, 0, .array [.object [("op", "add"),
        ("path", "/variables/bread"), ("value", .unsigned 1)]], true, some guardId, [], [], branch⟩
      let sow : Effect := ⟨sowId, "sow", sowOwner, .onResolve, 0, .array [.object [("op", "copy"),
        ("from", "/variables/bread"), ("path", "/variables/grain")]], true, none, [], [], branch⟩
      let mill : Entity := ⟨owner, [], branch,
        .object [("variables", .object [("bread", .unsigned 2), ("grain", .unsigned 1)])]⟩
      options.refuseCyclicWrites = true ∧
        (∀ e ∈ [bake, sow], (Patch.check e.payload e.owner.type).problems.isEmpty = true) ∧
        (∃ name ∈ activeReads ripe, name ∈ Patch.writes sow.payload) ∧
        (∃ name ∈ Patch.reads sow.payload, name ∈ Patch.writes bake.payload) ∧
        ∃ r, (resolve owner (.resolveEncounter ⟨0⟩) .null
            (ofSnapshot options .empty ⟨[], [ripe], [bake, sow], [mill], []⟩)).2.outcome = .ok r ∧
          r.pre.any (·.outcomes.any fun o => o.effectId = bake.id && o.fate.isApplied) := by
  intro owner samples
  simp only [samples, List.forall_mem_cons]
  refine ⟨?_, ?_, ?_, ?_, ?_, ?_, fun _ h => absurd h List.not_mem_nil⟩
  all_goals
    exact ⟨trivial, by decide +kernel, by decide +kernel, by decide +kernel,
      exists_ok_of_any _ _ (by decide +kernel)⟩

end Engine

end CampaignRules
