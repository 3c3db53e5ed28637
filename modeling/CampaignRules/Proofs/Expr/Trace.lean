import CampaignRules.Proofs.Expr.Recording

/-! # Traces describe the evaluation

The trace of an evaluation that succeeds shows the tree of the nodes that were evaluated. Each step
belongs to a node, and the steps up to the end of its span are those of the nodes evaluated inside it;
the spans of its children follow one another without a gap, and their outputs are what the step has
for its input if the node is an operation or an array. -/

namespace CampaignRules

namespace Expr

/-- The expressions that an evaluation evaluates from this one. -/
def parts : Expr → List Expr
  | .literal _ => []
  | .array items => items
  | .var _ default => default.toList
  | .operation _ args => args

mutual

/-- The expression itself and all expressions in it. -/
def nodes : Expr → List Expr
  | .literal value => [.literal value]
  | .array items => .array items :: itemsNodes items
  | .var path none => [.var path none]
  | .var path (some default) => .var path (some default) :: nodes default
  | .operation operator args => .operation operator args :: itemsNodes args

def itemsNodes : List Expr → List Expr
  | [] => []
  | item :: rest => nodes item ++ itemsNodes rest

end

theorem self_mem_nodes (expr : Expr) : expr ∈ expr.nodes := by
  cases expr with
  | var path default => cases default <;> exact List.mem_cons_self
  | _ => exact List.mem_cons_self

theorem nodes_subset_itemsNodes {item : Expr} :
    ∀ {items : List Expr}, item ∈ items → item.nodes ⊆ itemsNodes items
  | [], hitem => by cases hitem
  | first :: rest, hitem => by
      rcases List.mem_cons.1 hitem with rfl | hitem
      · exact List.subset_append_left _ _
      · exact List.subset_append_of_subset_right _ (nodes_subset_itemsNodes hitem)

theorem nodes_subset_of_mem_parts {part expr : Expr} (hpart : part ∈ expr.parts) :
    part.nodes ⊆ expr.nodes := by
  cases expr with
  | literal value => cases hpart
  | array items => exact List.subset_cons_of_subset _ (nodes_subset_itemsNodes hpart)
  | operation operator args => exact List.subset_cons_of_subset _ (nodes_subset_itemsNodes hpart)
  | var path default =>
      obtain rfl := Option.mem_toList.1 hpart
      exact List.subset_cons_self _ _

end Expr

mutual

/-- The visit is that of an expression, with visits of its parts inside it. -/
def Visit.Shows (expr : Expr) : Visit → Prop
  | .node operation input _ children =>
    operation = expr.view.operation ∧
      input = expr.view.input.getD (.array (children.map Visit.output)) ∧
      Visit.AllShow expr.parts children

/-- Each visit is that of one of the expressions. -/
def Visit.AllShow (exprs : List Expr) : List Visit → Prop
  | [] => True
  | visit :: rest => (∃ expr ∈ exprs, Visit.Shows expr visit) ∧ Visit.AllShow exprs rest

end

theorem Visit.allShow_iff {exprs : List Expr} {visits : List Visit} :
    AllShow exprs visits ↔ ∀ visit ∈ visits, ∃ expr ∈ exprs, Shows expr visit := by
  induction visits with
  | nil => simp [AllShow]
  | cons visit rest ih => rw [AllShow, List.forall_mem_cons, ih]

namespace Traced

/-- A computation that, if it succeeds, visits nothing but some expressions. -/
def showing (exprs : List Expr) : Simulation Traced Traced where
  rel x _ := ∀ a, x.outcome = .ok a → Visit.AllShow exprs x.entries
  pure _ _ _ := trivial
  fail _ _ h := by cases h
  bind := by
    rintro α β ⟨entries, e | a⟩ _ f _ hx hf b hb
    · cases hb
    · rw [Visit.allShow_iff]
      exact List.forall_mem_append.2
        ⟨Visit.allShow_iff.1 (hx a rfl), Visit.allShow_iff.1 (hf a b hb)⟩

/-- A computation that, if it succeeds, makes one visit, that of the expression, with its value. -/
def VisitsOnce (expr : Expr) (x : Traced Json) : Prop :=
  ∀ v, x.outcome = .ok v → ∃ visit, x.entries = [visit] ∧ visit.output = v ∧ visit.Shows expr

theorem visitsOnce_node {expr : Expr} {x : Traced Json} (hx : (showing expr.parts).rel x x) :
    VisitsOnce expr (Observer.node expr.view x) := by
  intro v hv
  rcases x with ⟨entries, e | a⟩
  · cases hv
  · cases hv
    exact ⟨_, rfl, rfl, rfl, rfl, hx v rfl⟩

theorem alike_of_visitsOnce {exprs : List Expr} {expr : Expr} {arg : Meaning Traced}
    (hmem : expr ∈ exprs) (harg : ∀ scope, VisitsOnce expr (arg scope)) :
    (showing exprs).Alike arg arg := by
  intro scope v hv
  obtain ⟨visit, hentries, -, hshows⟩ := harg scope v hv
  rw [hentries]
  exact ⟨⟨expr, hmem, hshows⟩, trivial⟩

end Traced

namespace Expr

open Traced (showing VisitsOnce visitsOnce_node alike_of_visitsOnce)

mutual

/-- The visit of an expression shows it. -/
theorem visitsOnce_meaning (registry : Registry) :
    ∀ (expr : Expr) (scope : Scope), VisitsOnce expr (expr.meaning registry scope)
  | .literal value, _ => visitsOnce_node ((showing []).pure value)
  | .array items, scope =>
      have hitems := alike_meanings registry items (List.Subset.refl _)
      visitsOnce_node ((showing items).bind (Simulation.evaluateAll scope hitems)
        fun _ => (showing items).pure _)
  | .var path none, scope => visitsOnce_node (Simulation.varMeaning path .none scope)
  | .var path (some default), scope =>
      have hdefault := alike_of_visitsOnce List.mem_cons_self (visitsOnce_meaning registry default)
      visitsOnce_node (Simulation.varMeaning path (.some hdefault) scope)
  | .operation operator args, scope =>
      have hargs := alike_meanings registry args (List.Subset.refl _)
      visitsOnce_node (Simulation.operationMeaning registry operator hargs scope)

theorem alike_meanings (registry : Registry) {exprs : List Expr} :
    ∀ items : List Expr, items ⊆ exprs →
      List.Forall₂ (showing exprs).Alike (meanings registry items) (meanings registry items)
  | [], _ => .nil
  | item :: rest, hsub =>
      .cons (alike_of_visitsOnce (hsub List.mem_cons_self) (visitsOnce_meaning registry item))
        (alike_meanings registry rest fun _ hmem => hsub (List.mem_cons_of_mem _ hmem))

end

end Expr

namespace Slot

/-- From the first position on, the spans of the given steps follow one another up to the last. -/
def Tile (slots : List Slot) : Nat → List Nat → Nat → Prop
  | first, [], last => first = last
  | first, child :: rest, last =>
    child = first ∧ ∃ slot, slots[child]? = some slot ∧ Tile slots (first + slot.span) rest last

def outputsAt (slots : List Slot) (positions : List Nat) : List Json :=
  positions.filterMap fun position => slots[position]?.map (·.output)

/-- The spans that begin from one position up to another end there at the latest, and each ends no
later than the spans that it begins in. -/
def Nested (slots : List Slot) (first last : Nat) : Prop :=
  ∀ i outer, first ≤ i → i < last → slots[i]? = some outer →
    0 < outer.span ∧ i + outer.span ≤ last ∧
    ∀ j inner, i < j → j < i + outer.span → slots[j]? = some inner →
      j + inner.span ≤ i + outer.span

/-- The step at a position is that of an expression: the spans of its children are what its own span
holds behind it, each child is the step of a part of the expression, and the input is the literal, the
path or else the list of what the children evaluated to. -/
inductive Recounts (slots : List Slot) : Nat → Expr → Prop
  | intro {position : Nat} {expr : Expr} {slot : Slot} {children : List Nat} {part : Nat → Expr}
      (hslot : slots[position]? = some slot)
      (hoperation : slot.operation = expr.view.operation)
      (hinput : slot.input = expr.view.input.getD (.array (outputsAt slots children)))
      (htile : Tile slots (position + 1) children (position + slot.span))
      (hpart : ∀ child ∈ children, part child ∈ expr.parts)
      (hchildren : ∀ child ∈ children, Recounts slots child (part child)) :
      Recounts slots position expr

/-- The visits stand in the trace from a position on. -/
def StandAt (slots : List Slot) (position : Nat) (visits : List Visit) : Prop :=
  ofVisits position visits <+: slots.drop position

variable {slots : List Slot} {position : Nat}

theorem StandAt.of_append {first more : List Slot} (h : first ++ more <+: slots.drop position) :
    more <+: slots.drop (position + first.length) := by
  obtain ⟨last, hlast⟩ := h
  rw [← List.drop_drop, ← hlast, List.append_assoc, List.drop_left]
  exact List.prefix_append more last

theorem StandAt.rest {visit : Visit} {more : List Visit}
    (h : StandAt slots position (visit :: more)) : StandAt slots (position + visit.span) more := by
  have hrest : ofVisits (position + visit.span) more <+: _ := StandAt.of_append h
  rwa [length_ofVisit] at hrest

section

variable {operation : Bytes} {input output : Json} {visits more : List Visit}

theorem StandAt.slot (h : StandAt slots position (.node operation input output visits :: more)) :
    slots[position]? = some ⟨⟨position, operation, input, output⟩, Visit.spans visits + 1⟩ := by
  obtain ⟨last, hlast⟩ := h
  rw [← List.head?_drop, ← hlast]
  rfl

theorem StandAt.inside (h : StandAt slots position (.node operation input output visits :: more)) :
    StandAt slots (position + 1) visits := by
  have hinside : [⟨⟨position, operation, input, output⟩, Visit.spans visits + 1⟩] ++
      ofVisits (position + 1) visits <+: slots.drop position := (List.prefix_append _ _).trans h
  exact StandAt.of_append hinside

end

mutual

/-- A visit that shows an expression stands in the trace as a step of it. -/
theorem recounts_of_shows : ∀ {visit : Visit} {position : Nat} {expr : Expr} {more : List Visit},
    StandAt slots position (visit :: more) → visit.Shows expr → Recounts slots position expr
  | .node operation input output visits, position, expr, more, hstand, hshows => by
      obtain ⟨hoperation, hinput, hall⟩ := hshows
      obtain ⟨children, htile, houtputs, hchildren⟩ := exists_tile hstand.inside hall
      have hlabels : ∀ child, ∃ part, child ∈ children →
          part ∈ expr.parts ∧ Recounts slots child part := by
        intro child
        by_cases hchild : child ∈ children
        · obtain ⟨part, hpart, hrecounts⟩ := hchildren child hchild
          exact ⟨part, fun _ => ⟨hpart, hrecounts⟩⟩
        · exact ⟨expr, fun h => absurd h hchild⟩
      choose part hpart using hlabels
      refine .intro hstand.slot hoperation ?_ ?_ (fun child h => (hpart child h).1)
        fun child h => (hpart child h).2
      · rw [houtputs]
        exact hinput
      · have hend : position + (Visit.spans visits + 1) = position + 1 + Visit.spans visits := by omega
        rw [hend]
        exact htile

/-- Visits that show some expressions stand in the trace side by side. -/
theorem exists_tile : ∀ {visits : List Visit} {position : Nat} {exprs : List Expr},
    StandAt slots position visits → Visit.AllShow exprs visits →
    ∃ children, Tile slots position children (position + Visit.spans visits) ∧
      outputsAt slots children = visits.map Visit.output ∧
      ∀ child ∈ children, ∃ expr ∈ exprs, Recounts slots child expr
  | [], _, _, _, _ => ⟨[], rfl, rfl, by simp⟩
  | .node operation input output inside :: rest, position, exprs, hstand, hall => by
      obtain ⟨⟨expr, hmem, hshows⟩, hrest⟩ := hall
      obtain ⟨children, htile, houtputs, hchildren⟩ := exists_tile hstand.rest hrest
      refine ⟨position :: children, ⟨rfl, _, hstand.slot, ?_⟩, ?_, List.forall_mem_cons.2 ⟨?_, hchildren⟩⟩
      · have hend : position + Visit.spans (.node operation input output inside :: rest) =
            position + (Visit.spans inside + 1) + Visit.spans rest := (Nat.add_assoc _ _ _).symm
        rw [hend]
        exact htile
      · rw [outputsAt, List.filterMap_cons, hstand.slot]
        exact congrArg _ houtputs
      · exact ⟨expr, hmem, recounts_of_shows hstand hshows⟩

end

/-! ### Every step -/

theorem Nested.append {first middle last : Nat} (hfirst : Nested slots first middle)
    (hlast : Nested slots middle last) (hle : middle ≤ last) : Nested slots first last := by
  intro i outer hlow hhigh hslot
  by_cases hi : i < middle
  · obtain ⟨hpos, hend, hinner⟩ := hfirst i outer hlow hi hslot
    exact ⟨hpos, by omega, hinner⟩
  · exact hlast i outer (by omega) hhigh hslot

/-- A span around nested ones. -/
theorem Nested.cons {first last : Nat} {slot : Slot} (hslot : slots[first]? = some slot)
    (hspan : first + slot.span = last) (hlt : first < last)
    (hinside : Nested slots (first + 1) last) : Nested slots first last := by
  intro i outer hlow hhigh houter
  rcases Nat.eq_or_lt_of_le hlow with rfl | hlow
  · obtain rfl := Option.some.inj (hslot.symm.trans houter)
    refine ⟨by omega, by omega, fun j inner hij hj hinner => ?_⟩
    rw [hspan]
    exact (hinside j inner hij (by omega) hinner).2.1
  · exact hinside i outer hlow hhigh houter

theorem nested_of_standAt : ∀ {visits : List Visit} {position : Nat},
    StandAt slots position visits → Nested slots position (position + Visit.spans visits)
  | [], _, _ => fun i _ hlow hhigh _ => absurd hhigh (Nat.not_lt.2 hlow)
  | .node operation input output inside :: rest, position, hstand => by
      have hinside := nested_of_standAt hstand.inside
      have hfirst : Nested slots position (position + (Visit.spans inside + 1)) :=
        .cons hstand.slot rfl (by omega) (by rwa [Nat.add_right_comm, Nat.add_assoc] at hinside)
      have hrest := nested_of_standAt hstand.rest
      rw [Visit.spans, ← Nat.add_assoc]
      exact hfirst.append hrest (Nat.le_add_right _ _)

/-- Every step among those of some visits belongs to an expression that they show. -/
theorem exists_recounts : ∀ {visits : List Visit} {position : Nat} {exprs : List Expr},
    StandAt slots position visits → Visit.AllShow exprs visits →
    ∀ i, position ≤ i → i < position + Visit.spans visits →
      ∃ expr ∈ exprs, ∃ node ∈ expr.nodes, Recounts slots i node
  | [], _, _, _, _, i, hlow, hhigh => absurd hhigh (Nat.not_lt.2 hlow)
  | .node operation input output inside :: rest, position, exprs, hstand, hall, i, hlow, hhigh => by
      obtain ⟨⟨expr, hmem, hshows⟩, hrest⟩ := hall
      have hspans : Visit.spans (.node operation input output inside :: rest) =
          Visit.spans inside + 1 + Visit.spans rest := rfl
      by_cases hi : i < position + (Visit.spans inside + 1)
      · refine ⟨expr, hmem, ?_⟩
        rcases Nat.eq_or_lt_of_le hlow with rfl | hlow
        · exact ⟨expr, expr.self_mem_nodes, recounts_of_shows hstand hshows⟩
        · obtain ⟨part, hpart, node, hnode, hrecounts⟩ :=
            exists_recounts hstand.inside hshows.2.2 i hlow (by omega)
          exact ⟨node, Expr.nodes_subset_of_mem_parts hpart hnode, hrecounts⟩
      · exact exists_recounts hstand.rest hrest i (Nat.not_lt.1 hi) (by rw [Visit.span]; omega)

end Slot

mutual

theorem TraceStep.numbers_ofVisit (first : Nat) : ∀ visit : Visit,
    (ofVisit first visit).map (·.step) = List.range' first visit.span
  | .node _ _ _ children => by
      rw [ofVisit, List.map_cons, numbers_ofVisits, Visit.span, List.range'_succ]

theorem TraceStep.numbers_ofVisits (first : Nat) : ∀ visits : List Visit,
    (ofVisits first visits).map (·.step) = List.range' first (Visit.spans visits)
  | [] => rfl
  | visit :: rest => by
      rw [ofVisits, List.map_append, numbers_ofVisit, numbers_ofVisits, Visit.spans,
        List.range'_append_1]

end

namespace Slot

/-- The steps are numbered by their positions. -/
def Numbered (slots : List Slot) : Prop :=
  slots.map (·.step) = List.range slots.length

/-- The steps of an evaluation that gave a value. -/
structure Describes (slots : List Slot) (expr : Expr) (value : Json) : Prop where
  numbered : Numbered slots
  nested : Nested slots 0 slots.length
  root : ∃ slot, slots[0]? = some slot ∧ slot.span = slots.length ∧ slot.output = value
  recounts : Recounts slots 0 expr
  everyStep : ∀ i < slots.length, ∃ node ∈ expr.nodes, Recounts slots i node

end Slot

namespace Expr

open Slot (Numbered Describes)

theorem numbered_of_records {registry : Registry} {expr : Expr} {context : Json}
    {added : List Slot} (hadded : Recording.Records (expr.meaning registry ⟨context, false⟩)
      (expr.evalTraced registry context) [] added) : Numbered added := by
  have hnumbers : added.map (·.step) =
      List.range' 0 (Visit.spans (expr.evalTraced registry context).entries) := by
    rw [← TraceStep.numbers_ofVisits]
    exact (List.map_map ..).symm.trans (congrArg _ hadded.steps)
  have hlength : added.length = Visit.spans (expr.evalTraced registry context).entries := by
    simpa using congrArg List.length hnumbers
  rw [Numbered, hlength, List.range_eq_range', hnumbers]

/-- The trace of an evaluation that succeeds describes it: the steps are numbered in the order of the
visits, the spans are nested, the root spans all steps and has the value for its output, and every step
is that of a node, with the nodes evaluated from it for its children. If the evaluation fails, the
steps up to there are numbered in the order of the visits all the same. -/
theorem trace_describes_evaluation (registry : Registry) (expr : Expr) (context : Json) :
    match expr.record registry context #[] with
    | (.ok value, trace) => Describes trace.toList expr value
    | (.error _, trace) => Numbered trace.toList := by
  obtain ⟨added, hadded⟩ := records_visits registry expr context []
  have hnumbered := numbered_of_records hadded
  have hrun : expr.record registry context #[] =
      ((expr.evalTraced registry context).outcome, added.toArray) := hadded.run
  rw [hrun]
  cases houtcome : (expr.evalTraced registry context).outcome with
  | error e => exact hnumbered
  | ok value =>
      obtain ⟨visit, hentries, rfl, hshows⟩ :=
        visitsOnce_meaning registry expr ⟨context, false⟩ value houtcome
      replace hentries : (expr.evalTraced registry context).entries = [visit] := hentries
      have hcompleted : added = Slot.ofVisits 0 (expr.evalTraced registry context).entries :=
        hadded.completed _ houtcome
      have hslots : added = Slot.ofVisits 0 [visit] := by
        rw [hcompleted, hentries]
      have hstand : Slot.StandAt added 0 [visit] := by
        show Slot.ofVisits 0 [visit] <+: added
        exact hslots ▸ List.prefix_rfl
      have hall : Visit.AllShow [expr] [visit] := ⟨⟨expr, List.mem_singleton_self _, hshows⟩, trivial⟩
      have hlength : added.length = 0 + Visit.spans [visit] := by
        rw [hslots, Slot.length_ofVisits, Nat.zero_add]
      have hrecounts := Slot.recounts_of_shows hstand hshows
      refine ⟨hnumbered, ?_, ?_, hrecounts, fun i hi => ?_⟩
      · rw [hlength]
        exact Slot.nested_of_standAt hstand
      · obtain ⟨operation, input, output, inside⟩ := visit
        have hspan : Visit.spans inside + 1 = added.length := by
          rw [hlength, Nat.zero_add]
          rfl
        exact ⟨_, hstand.slot, hspan, rfl⟩
      · obtain ⟨_, hmem, hnode⟩ := Slot.exists_recounts hstand hall i (Nat.zero_le i) (hlength ▸ hi)
        rwa [List.mem_singleton.1 hmem] at hnode

end Expr

end CampaignRules
