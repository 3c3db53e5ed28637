import CampaignRules.Expr.Recording
import CampaignRules.Proofs.Expr.Observation

/-! # What is recorded

Listed in the order in which their nodes were entered, the visits of an evaluation are what its
recording adds to the slots that were held before: their steps in any case, and the slots with their
spans if the evaluation succeeds. So a recording comes to the same value or failure as an evaluation
that records nothing, whatever was recorded before it. -/

namespace CampaignRules

namespace Slot

mutual

/-- The slots of a visit that was completed, the first of which has the given number. -/
def ofVisit (first : Nat) : Visit → List Slot
  | .node operation input output children =>
    ⟨⟨first, operation, input, output⟩, Visit.spans children + 1⟩ :: ofVisits (first + 1) children

def ofVisits (first : Nat) : List Visit → List Slot
  | [] => []
  | visit :: rest => ofVisit first visit ++ ofVisits (first + visit.span) rest

end

mutual

theorem length_ofVisit (first : Nat) : ∀ visit : Visit, (ofVisit first visit).length = visit.span
  | .node _ _ _ children => by rw [ofVisit, List.length_cons, length_ofVisits, Visit.span]

theorem length_ofVisits (first : Nat) :
    ∀ visits : List Visit, (ofVisits first visits).length = Visit.spans visits
  | [] => rfl
  | visit :: rest => by
      rw [ofVisits, List.length_append, length_ofVisit, length_ofVisits, Visit.spans]

end

mutual

theorem steps_ofVisit (first : Nat) : ∀ visit : Visit,
    (ofVisit first visit).map toTraceStep = TraceStep.ofVisit first visit
  | .node _ _ _ children => by rw [ofVisit, TraceStep.ofVisit, List.map_cons, steps_ofVisits]

theorem steps_ofVisits (first : Nat) : ∀ visits : List Visit,
    (ofVisits first visits).map toTraceStep = TraceStep.ofVisits first visits
  | [] => rfl
  | visit :: rest => by
      rw [ofVisits, TraceStep.ofVisits, List.map_append, steps_ofVisit, steps_ofVisits]

end

theorem ofVisits_append (visits more : List Visit) : ∀ first,
    ofVisits first (visits ++ more) =
      ofVisits first visits ++ ofVisits (first + Visit.spans visits) more := by
  induction visits with
  | nil => exact fun _ => rfl
  | cons visit rest ih =>
      intro first
      simp only [List.cons_append, ofVisits, ih, List.append_assoc, Visit.spans, Nat.add_assoc]

theorem topOutputs_append (skipped slots : List Slot) :
    topOutputs skipped.length (skipped ++ slots) = topOutputs 0 slots := by
  induction skipped with
  | nil => rfl
  | cons slot rest ih => exact ih

/-- Going over the spans meets the visits one after the other. -/
theorem topOutputs_ofVisits (visits : List Visit) : ∀ first,
    topOutputs 0 (ofVisits first visits) = visits.map Visit.output := by
  induction visits with
  | nil => exact fun _ => rfl
  | cons visit rest ih =>
      obtain ⟨operation, input, output, children⟩ := visit
      intro first
      rw [ofVisits, ofVisit, List.cons_append, topOutputs]
      refine congrArg _ ?_
      rw [← length_ofVisits (first + 1) children, Nat.add_sub_cancel, topOutputs_append, ih]

end Slot

theorem TraceStep.ofVisits_append (visits more : List Visit) : ∀ first,
    ofVisits first (visits ++ more) =
      ofVisits first visits ++ ofVisits (first + Visit.spans visits) more := by
  intro first
  simp only [← Slot.steps_ofVisits, Slot.ofVisits_append, List.map_append]

namespace Recording

variable {α β : Type}

theorem bind_eq (x : Recording α) (f : α → Recording β) (held : Array Slot) :
    (x >>= f) held =
      match x held with
      | (.ok a, slots) => f a slots
      | (.error e, slots) => (.error e, slots) := by
  show ExceptT.bindCont f (x held).1 (x held).2 = _
  rcases x held with ⟨e | a, slots⟩
  all_goals rfl

/-- A computation that records behind some slots what another one visits. -/
structure Records (x : Recording α) (y : Traced α) (held added : List Slot) : Prop where
  run : x held.toArray = (y.outcome, (held ++ added).toArray)
  steps : added.map Slot.toTraceStep = TraceStep.ofVisits held.length y.entries
  completed : ∀ a, y.outcome = .ok a → added = Slot.ofVisits held.length y.entries

theorem Records.of_outcome {x : Recording α} {y : Traced α} {held : List Slot}
    (hrun : x held.toArray = (y.outcome, held.toArray)) (hentries : y.entries = []) :
    Records x y held [] := by
  refine ⟨?_, ?_, fun _ _ => ?_⟩
  · rw [hrun, List.append_nil]
  · rw [hentries]
    rfl
  · rw [hentries]
    rfl

theorem Records.bind {x : Recording α} {f : α → Recording β} {entries : List Visit} {a : α}
    {y : Traced β} {held added more : List Slot} (hx : Records x ⟨entries, .ok a⟩ held added)
    (hy : Records (f a) y (held ++ added) more) :
    Records (x >>= f) ⟨entries ++ y.entries, y.outcome⟩ held (added ++ more) := by
  have hlength : (held ++ added).length = held.length + Visit.spans entries := by
    rw [List.length_append, hx.completed a rfl, Slot.length_ofVisits]
  refine ⟨?_, ?_, fun b hb => ?_⟩
  · rw [bind_eq, hx.run, ← List.append_assoc]
    exact hy.run
  · rw [List.map_append, hx.steps, hy.steps, hlength, ← TraceStep.ofVisits_append]
  · rw [hy.completed b hb, hlength]
    conv_lhs => rw [hx.completed a rfl]
    rw [← Slot.ofVisits_append]

/-- Recordings and the visits that they record, behind whatever was held before. -/
def visiting : Simulation Recording Traced where
  rel x y := ∀ held, ∃ added, Records x y held added
  pure _ _ := ⟨[], .of_outcome rfl rfl⟩
  fail _ _ := ⟨[], .of_outcome rfl rfl⟩
  bind := by
    rintro α β x ⟨entries, e | a⟩ f g hx hf held
    · obtain ⟨added, hrun, hsteps, -⟩ := hx held
      refine ⟨added, ?_, hsteps, fun _ h => by cases h⟩
      rw [bind_eq, hrun]
      rfl
    · obtain ⟨added, hadded⟩ := hx held
      obtain ⟨more, hmore⟩ := hf a (held ++ added)
      exact ⟨added ++ more, hadded.bind hmore⟩

theorem node_eq (view : NodeView) (value : Recording Json) (held : List Slot) :
    Observer.node view value held.toArray =
      match value (held ++ [Slot.taken held.length view]).toArray with
      | (.ok v, slots) =>
        (.ok v, slots.modify held.length
          (Slot.completed view v (slots.extract (held.length + 1) slots.size).toList))
      | (.error e, slots) => (.error e, slots) := by
  rw [← List.push_toArray]
  rfl

theorem modify_length (held added : List Slot) (slot : Slot) (f : Slot → Slot) :
    (held ++ slot :: added).modify held.length f = held ++ f slot :: added := by
  induction held with
  | nil => rfl
  | cons head rest ih => exact congrArg (head :: ·) ih

/-- A node that has a value completes its slot with what was recorded behind it. -/
theorem node_of_ok {view : NodeView} {value : Recording Json} {held added : List Slot} {v : Json}
    (hvalue : value (held ++ [Slot.taken held.length view]).toArray =
      (.ok v, (held ++ [Slot.taken held.length view] ++ added).toArray)) :
    Observer.node view value held.toArray =
      (.ok v, (held ++ Slot.completed view v added (.taken held.length view) :: added).toArray) := by
  have hinside : ((held ++ Slot.taken held.length view :: added).toArray.extract
      (held.length + 1) (held ++ Slot.taken held.length view :: added).length).toList = added := by
    have htake : List.take (held.length + (added.length + 1) - (held.length + 1)) added = added :=
      List.take_of_length_le (by omega)
    simpa using htake
  rw [node_eq, hvalue, List.append_assoc]
  simp only [List.singleton_append, List.size_toArray, hinside, List.modify_toArray, modify_length]

/-- The slot of a node is completed with the visits that were recorded behind it. -/
theorem completed_taken {view : NodeView} {v : Json} {entries : List Visit} {first : Nat} :
    Slot.completed view v (Slot.ofVisits (first + 1) entries) (.taken first view) ::
        Slot.ofVisits (first + 1) entries =
      Slot.ofVisits first (Traced.node view ⟨entries, .ok v⟩).entries := by
  rcases view with ⟨operation, _ | input⟩
  all_goals
    simp [Traced.node, Slot.ofVisits, Slot.ofVisit, Slot.completed, Slot.taken,
      Slot.topOutputs_ofVisits, Slot.length_ofVisits]

theorem visiting_kept : visiting.KeptByNodes := by
  rintro view x ⟨entries, outcome⟩ hvalue held
  obtain ⟨added, hrun, hsteps, hcompleted⟩ := hvalue (held ++ [Slot.taken held.length view])
  rw [List.length_append, List.length_singleton] at hsteps hcompleted
  cases outcome with
  | error e =>
      refine ⟨Slot.taken held.length view :: added, ?_, ?_, fun _ h => by cases h⟩
      · rw [node_eq, hrun, List.append_assoc]
        rfl
      · rw [List.map_cons, hsteps]
        exact (List.append_nil _).symm
  | ok v =>
      obtain rfl := hcompleted v rfl
      refine ⟨_, ?_, ?_, fun _ _ => completed_taken⟩
      · exact node_of_ok hrun
      · rw [completed_taken, Slot.steps_ofVisits]
        rfl

end Recording

namespace Expr

/-- What is recorded behind some slots are the visits of the evaluation. -/
theorem records_visits (registry : Registry) (expr : Expr) (context : Json) (held : List Slot) :
    ∃ added, Recording.Records (expr.meaning registry ⟨context, false⟩)
      (expr.evalTraced registry context) held added :=
  Simulation.meaning Recording.visiting_kept registry expr ⟨context, false⟩ held

/-- In any scope, what an evaluation comes to does not depend on its being recorded. -/
theorem outcome_recording (registry : Registry) (expr : Expr) (scope : Scope) (held : Array Slot) :
    ((expr.meaning registry scope : Recording Json) held).1 = expr.meaning registry scope := by
  obtain ⟨added, hrun, -, -⟩ :=
    Simulation.meaning Recording.visiting_kept registry expr scope held.toList
  have hsilent : (expr.meaning registry scope : Traced Json).outcome = expr.meaning registry scope :=
    Simulation.meaning Traced.silenced_kept registry expr scope
  rw [Array.toArray_toList] at hrun
  exact (congrArg Prod.fst hrun).trans hsilent

theorem outcome_record (registry : Registry) (expr : Expr) (context : Json) (held : List Slot) :
    (expr.record registry context held.toArray).1 = expr.eval registry context :=
  outcome_recording registry expr ⟨context, false⟩ held.toArray

/-- An evaluation comes to the same value, or to the same failure, whether or not it is recorded and
whatever was recorded before it. -/
theorem outcome_unaffected_by_recording (registry : Registry) (expr : Expr) (context : Json)
    (held : Array Slot) :
    (expr.record registry context held).1 = expr.eval registry context ∧
      (expr.evaluate registry context).map Prod.fst = expr.eval registry context := by
  refine ⟨outcome_record registry expr context held.toList, ?_⟩
  rw [← outcome_record registry expr context [], evaluate]
  rcases expr.record registry context #[] with ⟨e | v, slots⟩
  all_goals rfl

end Expr

end CampaignRules
