import CampaignRules.Proofs.Failure
import CampaignRules.Proofs.Resolution.Protection

/-! # Records that count

A resolution looks at the active effects of its entity, phase by phase, and at the conditions that guard
them. The order in which effects of a phase run is determined by their priorities, and among effects of
the same priority by the order of the records. So all records that lead to the same effects of each
priority, and to the same guards of these effects, lead to the same resolution, down to the log. -/

namespace CampaignRules

namespace Recorded

variable {ω ε α β : Type}

/-- What follows a computation counts only for the values that it comes to. -/
theorem bind_congr_of_ok {x : Recorded ω ε α} {f g : α → Recorded ω ε β}
    (hsame : ∀ a, x.outcome = .ok a → f a = g a) : x >>= f = x >>= g := by
  rcases x with ⟨entries, e | a⟩
  · rfl
  · show bind _ f = bind _ g
    simp only [bind, hsame a rfl]

end Recorded

namespace Resolution

variable {setting : Setting} {act : CoreAction} {entity : Entity} {owner : EntityRef} {phase : Phase}
  {effects others ran : List Effect} {conditions : List Condition}

/-- The effect is to run in the phase, with the priority. -/
def isDue (owner : EntityRef) (phase : Phase) (priority : Int32) (effect : Effect) : Bool :=
  effect.isActive && effect.timing = phase && effect.owner = owner && effect.priority = priority

/-- The effects that run in a phase: by falling priority, and for each priority those that are due, in
the order of the records. -/
structure InOrder (effects : List Effect) (owner : EntityRef) (phase : Phase) (ran : List Effect) :
    Prop where
  falling : ran.Pairwise fun a b => a.priority ≥ b.priority
  ties : ∀ priority, (ran.filter fun effect => effect.priority = priority) =
    effects.filter (isDue owner phase priority)

theorem mem_of_ties (hties : ∀ priority : Int32, (ran.filter fun effect => effect.priority = priority) =
    others.filter fun effect => effect.priority = priority) {effect : Effect} (hmem : effect ∈ ran) :
    effect ∈ others := by
  have hfound : effect ∈ ran.filter fun e => e.priority = effect.priority :=
    List.mem_filter.2 ⟨hmem, decide_eq_true rfl⟩
  rw [hties] at hfound
  exact (List.mem_filter.1 hfound).1

/-- Lists of falling priority are equal if they have the same effects of each priority. -/
theorem eq_of_falling (hran : ran.Pairwise fun a b => a.priority ≥ b.priority)
    (hothers : others.Pairwise fun a b => a.priority ≥ b.priority)
    (hties : ∀ priority : Int32, (ran.filter fun effect => effect.priority = priority) =
      others.filter fun effect => effect.priority = priority) : ran = others := by
  induction ran generalizing others with
  | nil =>
      refine (List.eq_nil_iff_forall_not_mem.2 fun effect hmem => ?_).symm
      exact List.not_mem_nil (mem_of_ties (fun priority => (hties priority).symm) hmem)
  | cons first rest ih =>
      obtain ⟨hfirst, hrest⟩ := List.pairwise_cons.1 hran
      cases others with
      | nil => exact absurd (mem_of_ties hties List.mem_cons_self) List.not_mem_nil
      | cons top below =>
          obtain ⟨htop, hbelow⟩ := List.pairwise_cons.1 hothers
          have hle : first.priority ≤ top.priority := by
            rcases List.mem_cons.1 (mem_of_ties hties List.mem_cons_self) with heq | hmem
            · exact heq ▸ Int32.le_refl _
            · exact htop first hmem
          have hge : top.priority ≤ first.priority := by
            rcases List.mem_cons.1 (mem_of_ties (fun priority => (hties priority).symm)
              List.mem_cons_self) with heq | hmem
            · exact heq ▸ Int32.le_refl _
            · exact hfirst top hmem
          have hpriority : top.priority = first.priority := Int32.le_antisymm hge hle
          have hsame := hties first.priority
          simp only [List.filter_cons, hpriority, decide_true, if_true, List.cons.injEq] at hsame
          obtain ⟨rfl, -⟩ := hsame
          rw [ih hrest hbelow fun priority => ?_]
          have hrests := hties priority
          by_cases heq : first.priority = priority
          · simpa [heq] using hrests
          · simpa [heq] using hrests

theorem priority_trans (a b c : Effect) (hab : decide (a.priority ≥ b.priority))
    (hbc : decide (b.priority ≥ c.priority)) : decide (a.priority ≥ c.priority) :=
  decide_eq_true (Int32.le_trans (of_decide_eq_true hbc) (of_decide_eq_true hab))

theorem priority_total (a b : Effect) :
    decide (a.priority ≥ b.priority) || decide (b.priority ≥ a.priority) := by
  rw [Bool.or_eq_true, decide_eq_true_eq, decide_eq_true_eq]
  exact Int32.le_total _ _

/-- Effects of one priority are sorted as they come. -/
theorem filter_priority_mergeSort (effects : List Effect) (priority : Int32) :
    ((effects.mergeSort fun a b => a.priority ≥ b.priority).filter fun effect =>
        effect.priority = priority) = effects.filter fun effect => effect.priority = priority := by
  have hperm := (List.mergeSort_perm effects fun a b => decide (a.priority ≥ b.priority)).filter
    fun effect => effect.priority = priority
  refine (List.Sublist.eq_of_length ?_ hperm.length_eq.symm).symm
  have hties : (effects.filter fun effect => effect.priority = priority).Sublist
      (effects.mergeSort fun a b => a.priority ≥ b.priority) := by
    refine List.sublist_mergeSort priority_trans priority_total ?_ List.filter_sublist
    refine List.pairwise_of_forall_mem_list fun a ha b hb => ?_
    have hsame : a.priority = b.priority := by
      rw [of_decide_eq_true (List.mem_filter.1 ha).2, of_decide_eq_true (List.mem_filter.1 hb).2]
    exact decide_eq_true (hsame ▸ Int32.le_refl _)
  simpa using hties.filter fun effect => effect.priority = priority

theorem inOrder_select (effects : List Effect) (owner : EntityRef) (phase : Phase) :
    InOrder effects owner phase (select effects owner phase) where
  falling := (List.pairwise_mergeSort priority_trans priority_total _).imp of_decide_eq_true
  ties priority := by
    rw [select, filter_priority_mergeSort, List.filter_filter]
    refine List.filter_congr fun effect _ => ?_
    rw [isDue, Bool.and_comm]

/-- What runs in a phase depends on the effects that are due, priority by priority. -/
theorem select_congr (hdue : ∀ priority, others.filter (isDue owner phase priority) =
    effects.filter (isDue owner phase priority)) : select others owner phase = select effects owner phase := by
  have hothers := inOrder_select others owner phase
  have heffects := inOrder_select effects owner phase
  refine eq_of_falling hothers.falling heffects.falling fun priority => ?_
  rw [hothers.ties, heffects.ties, hdue]

section

variable (hguards : ∀ effect ∈ ran, ∀ id, effect.guardId = some id →
  { setting with effects, conditions }.guard? id = setting.guard? id)

include hguards

theorem runEffect_congr {effect : Effect} (hmem : effect ∈ ran) :
    runEffect { setting with effects, conditions } entity effect = runEffect setting entity effect := by
  have hjudge : judge { setting with effects, conditions } entity effect =
      judge setting entity effect := by
    rw [judge, judge]
    cases hid : effect.guardId with
    | none => rfl
    | some id =>
        simp only [hguards effect hmem id hid]
        rfl
  rw [runEffect, runEffect, hjudge]

/-- Effects run alike if their guards are the same. -/
theorem runEffects_congr : ∀ (summary : PhaseSummary) (entity : Entity),
    runEffects { setting with effects, conditions } summary entity ran =
      runEffects setting summary entity ran := by
  induction ran with
  | nil => exact fun _ _ => rfl
  | cons first rest ih =>
      intro summary entity
      rw [runEffects, runEffects, runEffect_congr hguards List.mem_cons_self]
      have hrest := ih fun effect hmem => hguards effect (List.mem_cons_of_mem _ hmem)
      simp only [hrest]

end

/-- Records lead to the same phase of an entity. -/
structure SamePhase (setting : Setting) (effects : List Effect) (conditions : List Condition)
    (owner : EntityRef) (phase : Phase) : Prop where
  selected : select effects owner phase = select setting.effects owner phase
  guards : ∀ effect ∈ select setting.effects owner phase, ∀ id, effect.guardId = some id →
    { setting with effects, conditions }.guard? id = setting.guard? id

theorem runPhase_congr (h : SamePhase setting effects conditions entity.ref phase) :
    runPhase { setting with effects, conditions } phase entity = runPhase setting phase entity := by
  simp only [runPhase, h.selected, runEffects_congr h.guards]

/-- What the entity goes by when a phase is run. The core action may give it another name. -/
def GoesBy (setting : Setting) (act : CoreAction) (entity : Entity) : Phase → EntityRef → Prop
  | .pre, owner => owner = entity.ref
  | .onResolve, owner | .post, owner => ∃ pre working acted,
      (runPhase setting .pre entity).outcome = .ok (pre, working) ∧ act working = .ok acted ∧
        owner = acted.ref

/-- A core action that renames nothing leaves the entity its name in all phases. -/
theorem ref_of_goesBy (hkeeps : ∀ working acted, act working = .ok acted → acted.ref = working.ref)
    (howner : GoesBy setting act entity phase owner) : owner = entity.ref := by
  cases phase with
  | pre => exact howner
  | onResolve | post =>
      obtain ⟨pre, working, acted, hpre, hact, rfl⟩ := howner
      exact (hkeeps working acted hact).trans (ref_of_runPhase hpre)

/-- Records that lead to the same phases lead to the same resolution. -/
theorem resolve_congr (hsame : ∀ phase owner, GoesBy setting act entity phase owner →
      SamePhase setting effects conditions owner phase) :
    resolve { setting with effects, conditions } act entity = resolve setting act entity := by
  rw [resolve, resolve, runPhase_congr (hsame .pre _ rfl)]
  refine Recorded.bind_congr_of_ok ?_
  rintro ⟨pre, working⟩ hpre
  simp only
  cases hact : act working with
  | error e => rfl
  | ok acted =>
      have honResolve := hsame .onResolve acted.ref ⟨pre, working, acted, hpre, hact, rfl⟩
      have hpost := hsame .post acted.ref ⟨pre, working, acted, hpre, hact, rfl⟩
      simp only [runPhase_congr honResolve]
      refine Recorded.bind_congr_of_ok ?_
      rintro ⟨onResolve, resolved⟩ hrun
      rw [← show resolved.ref = acted.ref from ref_of_runPhase hrun] at hpost
      simp only [runPhase_congr hpost]

/-! ### Records that do not count -/

/-- Of the effects those count that are due. -/
theorem resolve_congr_of_due (hdue : ∀ phase owner, GoesBy setting act entity phase owner → ∀ priority,
      effects.filter (isDue owner phase priority) = setting.effects.filter (isDue owner phase priority)) :
    resolve { setting with effects } act entity = resolve setting act entity :=
  resolve_congr fun phase owner howner => ⟨select_congr (hdue phase owner howner), fun _ _ _ _ => rfl⟩

theorem filter_insert_of_eq_false {α : Type} {test : α → Bool} {item : α} (hitem : test item = false)
    (before after : List α) : (before ++ item :: after).filter test = (before ++ after).filter test := by
  simp [List.filter_append, hitem]

/-- A condition is not in the way of others. -/
theorem guard?_insert {guard : Condition} {before after : List Condition} {id : Bytes}
    (hid : guard.id ≠ id) : Setting.guard? { setting with conditions := before ++ guard :: after } id =
      Setting.guard? { setting with conditions := before ++ after } id := by
  simp [Setting.guard?, List.find?_append, hid]

/-- The lists have the same effects of each timing and priority, in the same order. -/
def SameTies (effects others : List Effect) : Prop :=
  ∀ (phase : Phase) (priority : Int32),
    (effects.filter fun effect => effect.timing = phase && effect.priority = priority) =
      others.filter fun effect => effect.timing = phase && effect.priority = priority

theorem SameTies.filter_isDue (h : SameTies effects others) (owner : EntityRef) (phase : Phase)
    (priority : Int32) :
    effects.filter (isDue owner phase priority) = others.filter (isDue owner phase priority) := by
  have hsplit : ∀ list : List Effect, list.filter (isDue owner phase priority) =
      (list.filter fun effect => effect.timing = phase && effect.priority = priority).filter
        fun effect => effect.isActive && effect.owner = owner := by
    intro list
    rw [List.filter_filter]
    refine List.filter_congr fun effect _ => ?_
    simp only [isDue, Bool.and_assoc, Bool.and_left_comm, Bool.and_comm]
  rw [hsplit, hsplit, h phase priority]

/-- What an entity runs in a phase. -/
theorem exists_inOrder_of_resolve {r : Resolution}
    (hresolve : (resolve setting act entity).outcome = .ok r) :
    ∀ summary ∈ r.summaries, ∃ owner ran, GoesBy setting act entity summary.phase owner ∧
      InOrder setting.effects owner summary.phase ran ∧ summary.executionOrder = ran.map (·.id) := by
  have hphase : ∀ {phase : Phase} {working after : Entity} {summary : PhaseSummary},
      (runPhase setting phase working).outcome = .ok (summary, after) →
      GoesBy setting act entity phase working.ref →
      ∃ owner ran, GoesBy setting act entity summary.phase owner ∧
        InOrder setting.effects owner summary.phase ran ∧ summary.executionOrder = ran.map (·.id) := by
    intro phase working after summary hrun howner
    have horder := executionOrder_of_runPhase hrun
    obtain ⟨-, rfl, -⟩ := isTally_of_runPhase hrun
    exact ⟨_, _, howner, inOrder_select _ _ _, horder⟩
  obtain ⟨pre, working, hpre, ⟨_, -, rfl⟩ | ⟨acted, onResolve, _, post, _, hact, honResolve, hpost, rfl⟩⟩ :=
    stages_of_resolve hresolve
  · exact List.forall_mem_singleton.2 (hphase hpre rfl)
  · have hpost' := hphase hpost ⟨pre, working, acted, hpre, hact, ref_of_runPhase honResolve⟩
    exact List.forall_mem_cons.2 ⟨hphase hpre rfl, List.forall_mem_cons.2
      ⟨hphase honResolve ⟨pre, working, acted, hpre, hact, rfl⟩, List.forall_mem_singleton.2 hpost'⟩⟩

/-- Each phase runs the effects that are due, by falling priority and else in the order of the records.
Nothing about a resolution changes if an effect is put anywhere among the others that is inactive or not
that of the entity, if a condition is put anywhere that guards no active effect of the entity, or if the
effects are put into another order that differs for none of the same timing and priority. -/
theorem only_due_effects_count (setting : Setting) (act : CoreAction) (entity : Entity) :
    (∀ r, (resolve setting act entity).outcome = .ok r → ∀ summary ∈ r.summaries,
      ∃ owner ran, GoesBy setting act entity summary.phase owner ∧
        InOrder setting.effects owner summary.phase ran ∧ summary.executionOrder = ran.map (·.id)) ∧
    (∀ before effect after, setting.effects = before ++ after →
      effect.isActive = false ∨ ¬GoesBy setting act entity effect.timing effect.owner →
      resolve { setting with effects := before ++ effect :: after } act entity =
        resolve setting act entity) ∧
    (∀ before guard after, setting.conditions = before ++ after →
      (∀ effect ∈ setting.effects, effect.isActive →
        GoesBy setting act entity effect.timing effect.owner → effect.guardId ≠ some guard.id) →
      resolve { setting with conditions := before ++ guard :: after } act entity =
        resolve setting act entity) ∧
    ∀ effects, SameTies effects setting.effects →
      resolve { setting with effects } act entity = resolve setting act entity := by
  refine ⟨fun r => exists_inOrder_of_resolve, fun before effect after hrecords hforeign => ?_,
    fun before guard after hrecords hunused => ?_, fun effects hties => ?_⟩
  · refine resolve_congr_of_due fun phase owner howner priority => ?_
    rw [hrecords]
    refine filter_insert_of_eq_false ?_ before after
    rw [Bool.eq_false_iff]
    intro hdue
    simp only [isDue, Bool.and_eq_true, decide_eq_true_eq] at hdue
    obtain ⟨⟨⟨hactive, rfl⟩, rfl⟩, -⟩ := hdue
    rcases hforeign with hinactive | hother
    · cases hactive.symm.trans hinactive
    · exact hother howner
  · refine resolve_congr fun phase owner howner => ⟨rfl, fun effect hmem id hid => ?_⟩
    obtain ⟨hrecord, hactive, rfl, rfl⟩ := mem_select.1 hmem
    have hother : guard.id ≠ id := fun heq => hunused effect hrecord hactive howner (heq ▸ hid)
    rw [show setting.guard? id = Setting.guard? { setting with conditions := before ++ after } id by
      rw [← hrecords]]
    exact guard?_insert hother
  · exact resolve_congr_of_due fun phase owner _ => hties.filter_isDue owner phase

/-- The bonus of an encounter comes before its toll. It stays so if the toll of another encounter and a
condition without an effect come in, and if the records have the toll first. -/
theorem only_due_effects_count_bonus :
    let owner : EntityRef := ⟨EntityRef.encounter, "e1"⟩
    let sets : Bytes → EntityRef → Int32 → UInt64 → Effect := fun id owner priority gold =>
      ⟨id, id, owner, .pre, priority, .array [.object [("op", "add"), ("path", "/variables/gold"),
        ("value", .unsigned gold)]], true, none, [], [], []⟩
    let bonus := sets "bonus" owner 5 7
    let toll := sets "toll" owner 0 0
    let elsewhere := sets "elsewhere" ⟨EntityRef.encounter, "e2"⟩ 9 9
    let rainy : Condition := ⟨"rainy", EntityRef.encounter, none, "isRainy", true, [], 0, true, 1, [], []⟩
    let setting : Setting := ⟨.empty, [bonus, toll], [], [], false, .null⟩
    let entity : Entity := ⟨owner, [], [], .object [("id", "e1"), ("variables", .object [])]⟩
    let run := fun setting => resolve setting (CoreAction.resolveEncounter ⟨0⟩) entity
    (∃ r, (run setting).outcome = .ok r ∧
      r.summaries.map (·.executionOrder) = [[bonus.id, toll.id], [], []]) ∧
    run { setting with effects := [bonus, elsewhere, toll] } = run setting ∧
    run { setting with conditions := [rainy] } = run setting ∧
    run { setting with effects := [toll, bonus] } = run setting := by
  intro owner sets bonus toll elsewhere rainy setting entity run
  obtain ⟨-, heffect, hcondition, hmoved⟩ :=
    only_due_effects_count setting (CoreAction.resolveEncounter ⟨0⟩) entity
  have hselect : select setting.effects entity.ref .pre = [bonus, toll] :=
    List.mergeSort_of_pairwise (by decide +kernel)
  obtain ⟨r, hresolve, horder⟩ := exists_ok_of_any (run setting).outcome
    (fun r => r.summaries.map (·.executionOrder) = [[bonus.id, toll.id], [], []])
    (by simp only [run, resolve, runPhase, hselect]; decide +kernel)
  refine ⟨⟨r, hresolve, of_decide_eq_true horder⟩, heffect [bonus] elsewhere [toll] rfl (.inr ?_),
    hcondition [] rainy [] rfl ?_, hmoved [toll, bonus] ?_⟩
  · intro howner
    have href := ref_of_goesBy (fun _ _ hacted => (acted_resolveEncounter hacted).1) howner
    exact absurd href (by decide)
  · rintro effect hmem - - hguard
    rcases List.mem_cons.1 hmem with rfl | hmem
    · cases hguard
    · cases List.mem_singleton.1 hmem ▸ hguard
  · intro phase priority
    by_cases hpriority : priority = 0
    · subst hpriority
      cases phase <;> rfl
    · have htoll : toll.priority ≠ priority := Ne.symm hpriority
      simp [setting, List.filter_cons, htoll]

end Resolution

end CampaignRules
