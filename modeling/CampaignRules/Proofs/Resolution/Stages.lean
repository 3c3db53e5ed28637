import CampaignRules.Proofs.Failure
import CampaignRules.Proofs.Resolution.Protection
import Mathlib.Data.List.Perm.Basic

/-! # The stages of a resolution

The core action divides a resolution in two. Until it is done nothing is kept: if it refuses, the entity
is given back as it came in, whatever the effects of the first phase did to a copy of it. Once it is done
nothing can be refused any more, and each of the effects of the entity has its turn in one of the
phases. -/

namespace CampaignRules.Resolution

variable {setting : Setting} {entity after : Entity}

/-- The active effects of an entity, which may go by another reference in each phase. -/
def owned (ref : Phase → EntityRef) (effects : List Effect) : List Effect :=
  effects.filter fun effect => effect.isActive && effect.owner = ref effect.timing

theorem select_perm (effects : List Effect) (ref : Phase → EntityRef) (phase : Phase) :
    (select effects (ref phase) phase).Perm
      ((owned ref effects).filter fun effect => effect.timing = phase) := by
  refine (List.mergeSort_perm _ _).trans (.of_eq ?_)
  rw [owned, List.filter_filter]
  refine List.filter_congr fun effect _ => ?_
  by_cases htiming : effect.timing = phase
  · simp [htiming]
  · simp [htiming]

/-- Each effect belongs to one of the phases. -/
theorem timings_perm (effects : List Effect) :
    ((effects.filter fun effect => effect.timing = .pre) ++
      ((effects.filter fun effect => effect.timing = .onResolve) ++
        effects.filter fun effect => effect.timing = .post)).Perm effects := by
  induction effects with
  | nil => exact .nil
  | cons effect rest ih =>
      cases htiming : effect.timing with
      | pre =>
          simp only [List.filter_cons, htiming]
          exact ih.cons effect
      | onResolve =>
          simp only [List.filter_cons, htiming]
          exact List.perm_middle.trans (ih.cons effect)
      | post =>
          simp only [List.filter_cons, htiming]
          exact (List.perm_middle.append_left _).trans (List.perm_middle.trans (ih.cons effect))

theorem selections_perm (effects : List Effect) (ref : Phase → EntityRef) :
    (select effects (ref .pre) .pre ++
      (select effects (ref .onResolve) .onResolve ++ select effects (ref .post) .post)).Perm
      (owned ref effects) := by
  have hpre := select_perm effects ref .pre
  have honResolve := select_perm effects ref .onResolve
  have hpost := select_perm effects ref .post
  exact (hpre.append (honResolve.append hpost)).trans (timings_perm _)

/-- What the entity goes by in each phase; a core action may give it another name. -/
def refIn (entity acted : Entity) : Phase → EntityRef
  | .pre => entity.ref
  | .onResolve | .post => acted.ref

/-- A resolution that comes to an end got through its first phase. If the core action then refuses, the
entity is given back as it came in, and the other phases were not run. If it does not, the entity went
through the core action and the other phases one after the other, and the ids that the three phases list
are those of its active effects, each effect once. -/
theorem resolution_all_or_nothing (setting : Setting) (act : CoreAction) (entity : Entity)
    (r : Resolution) (hresolve : (resolve setting act entity).outcome = .ok r) :
    ∃ pre working, (runPhase setting .pre entity).outcome = .ok (pre, working) ∧
      (∀ e, act working = .error e → r = ⟨some (refusalReport e), entity, some pre, none, none⟩) ∧
      ∀ acted, act working = .ok acted → ∃ onResolve resolved post last,
        (runPhase setting .onResolve acted).outcome = .ok (onResolve, resolved) ∧
        (runPhase setting .post resolved).outcome = .ok (post, last) ∧
        r = ⟨none, last, some pre, some onResolve, some post⟩ ∧
        let ran := pre.executionOrder ++ (onResolve.executionOrder ++ post.executionOrder)
        ran.Perm ((owned (refIn entity acted) setting.effects).map (·.id)) ∧
        (acted.ref = entity.ref →
          ran.Perm ((owned (fun _ => entity.ref) setting.effects).map (·.id))) := by
  obtain ⟨pre, working, hpre, hstages⟩ := stages_of_resolve hresolve
  refine ⟨pre, working, hpre, fun e hact => ?_, fun acted hact => ?_⟩
  · rcases hstages with ⟨e', hact', rfl⟩ | ⟨_, _, _, _, _, hact', -⟩
    · cases hact.symm.trans hact'
      rfl
    · cases hact.symm.trans hact'
  · rcases hstages with ⟨_, hact', -⟩ | ⟨acted', onResolve, resolved, post, last, hact', honResolve, hpost, rfl⟩
    · cases hact.symm.trans hact'
    · cases hact.symm.trans hact'
      have hran : (pre.executionOrder ++ (onResolve.executionOrder ++ post.executionOrder)).Perm
          ((owned (refIn entity acted) setting.effects).map (·.id)) := by
        rw [executionOrder_of_runPhase hpre, executionOrder_of_runPhase honResolve,
          executionOrder_of_runPhase hpost, ref_of_runPhase honResolve, ← List.map_append,
          ← List.map_append]
        exact (selections_perm setting.effects (refIn entity acted)).map _
      refine ⟨onResolve, resolved, post, last, honResolve, hpost, rfl, hran, fun href => ?_⟩
      have hrefs : refIn entity acted = fun _ => entity.ref := by
        funext phase
        cases phase with
        | pre => rfl
        | onResolve | post => exact href
      exact hrefs ▸ hran

/-- An encounter pays a toll and a reward, whatever else its campaign holds. Once it is resolved it is
refused: the toll was taken again, but not from the entity that is given back. -/
theorem resolution_all_or_nothing_toll :
    let owner : EntityRef := ⟨EntityRef.encounter, "e1"⟩
    let sets : Bytes → EntityRef → Phase → UInt64 → Bool → Effect := fun id owner phase gold isActive =>
      ⟨id, id, owner, phase, 0, .array [.object [("op", "add"), ("path", "/variables/gold"),
        ("value", .unsigned gold)]], isActive, none, [], [], []⟩
    let reward := sets "reward" owner .post 7 true
    let toll := sets "toll" owner .pre 0 true
    let setting : Setting := ⟨.empty, [reward, sets "elsewhere" ⟨EntityRef.encounter, "e2"⟩ .post 9 true,
      sets "disabled" owner .onResolve 9 false, toll], [], [], false, .null⟩
    let act := CoreAction.resolveEncounter ⟨0⟩
    let fresh : Entity := ⟨owner, [], [], .object [("id", "e1"),
      ("variables", .object [("gold", .unsigned 3)])]⟩
    let resolved : Entity := ⟨owner, [], [], .object [("id", "e1"), ("isResolved", true),
      ("variables", .object [("gold", .unsigned 3)])]⟩
    (∃ r pre onResolve post, (resolve setting act fresh).outcome = .ok r ∧ r.failure = none ∧
      r.pre = some pre ∧ r.onResolve = some onResolve ∧ r.post = some post ∧
      (pre.executionOrder ++ (onResolve.executionOrder ++ post.executionOrder)).Perm
        [reward.id, toll.id]) ∧
    ∃ r pre, (resolve setting act resolved).outcome = .ok r ∧ r.failure.isSome ∧
      r.entity = resolved ∧ r.pre = some pre ∧ pre.succeeded = 1 ∧ r.onResolve.isNone ∧ r.post.isNone := by
  intro owner sets reward toll setting act fresh resolved
  constructor
  · obtain ⟨r, hresolve, hok⟩ := exists_ok_of_any (resolve setting act fresh).outcome
      (·.failure.isNone) (by decide +kernel)
    rw [Option.isNone_iff_eq_none] at hok
    obtain ⟨pre, working, hpre, hrefused, hdone⟩ :=
      resolution_all_or_nothing setting act fresh r hresolve
    cases hact : act working with
    | error e =>
        rw [hrefused e hact] at hok
        cases hok
    | ok acted =>
        obtain ⟨onResolve, _, post, _, -, -, rfl, -, hran⟩ := hdone acted hact
        have href : acted.ref = fresh.ref := (acted_resolveEncounter hact).1.trans (ref_of_runPhase hpre)
        exact ⟨_, pre, onResolve, post, hresolve, rfl, rfl, rfl, rfl, hran href⟩
  · obtain ⟨r, hresolve, hr⟩ := exists_ok_of_any (resolve setting act resolved).outcome
      (fun r => r.failure.isSome && r.pre.any (·.succeeded = 1)) (by decide +kernel)
    obtain ⟨hfailure, hpaid⟩ := Bool.and_eq_true_iff.1 hr
    obtain ⟨pre, working, hpre, hrefused, hdone⟩ :=
      resolution_all_or_nothing setting act resolved r hresolve
    cases hact : act working with
    | error e =>
        cases hrefused e hact
        exact ⟨_, pre, hresolve, rfl, rfl, rfl, by simpa using hpaid, rfl, rfl⟩
    | ok acted =>
        obtain ⟨_, _, _, _, -, -, rfl, -⟩ := hdone acted hact
        cases hfailure

end CampaignRules.Resolution
