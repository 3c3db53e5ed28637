import CampaignRules.Proofs.Expr.Reading
import CampaignRules.Proofs.Expr.Trace
import CampaignRules.Proofs.Expr.Upkeep
import CampaignRules.Proofs.Json.Display

/-! # Where texts are broken

An evaluation on texts of UTF-8 comes to texts of UTF-8, with one exception: a substring is a row of
bytes, and it may begin or end inside a character. If no step of the trace cuts a character, no value of
the evaluation is broken. The invariant is told of a computation and its visits, and evaluations keep it
up. -/

namespace CampaignRules

/-- The step takes a broken text out of a whole one. -/
def TraceStep.CutsCharacter (s : TraceStep) : Prop :=
  s.operation = Operator.substring.name ∧ s.input.isUtf8 ∧ s.output.isUtf8 = false

instance (s : TraceStep) : Decidable s.CutsCharacter :=
  inferInstanceAs (Decidable (_ ∧ _ ∧ _))

/-- No step among the visits cuts a character, from whatever number on they are counted. -/
def Visit.Whole (first : Nat) (visits : List Visit) : Prop :=
  ∀ step ∈ TraceStep.ofVisits first visits, ¬step.CutsCharacter

namespace Traced

variable {α β : Type} {good : α → Prop} {fine : β → Prop} {x : Traced α}

/-- If no visit cuts a character, all visits have whole outputs, and the value, if there is one, is
good. -/
def Keeps (good : α → Prop) (x : Traced α) : Prop :=
  ∀ first, Visit.Whole first x.entries →
    (∀ visit ∈ x.entries, visit.output.isUtf8) ∧ ∀ a, x.outcome = .ok a → good a

namespace Keeps

theorem pure {a : α} (ha : good a) : Keeps good (Pure.pure a) := by
  refine fun _ _ => ⟨List.forall_mem_nil _, fun b hb => ?_⟩
  cases hb
  exact ha

theorem fail (e : Error) : Keeps good (Observer.fail e) :=
  fun _ _ => ⟨List.forall_mem_nil _, fun _ h => by cases h⟩

theorem ofExcept {outcome : Except Error α} (hgood : ∀ a, outcome = .ok a → good a) :
    Keeps good (Observer.ofExcept outcome) := by
  cases outcome with
  | ok a => exact pure (hgood a rfl)
  | error e => exact fail e

theorem bind {f : α → Traced β} (hx : Keeps good x) (hf : ∀ a, good a → Keeps fine (f a)) :
    Keeps fine (x >>= f) := by
  rcases x with ⟨entries, e | a⟩
  · intro first hwhole
    exact ⟨(hx first hwhole).1, fun _ h => by cases h⟩
  · intro first hwhole
    have hsplit : Visit.Whole first (entries ++ (f a).entries) := hwhole
    rw [Visit.Whole, TraceStep.ofVisits_append, List.forall_mem_append] at hsplit
    obtain ⟨houtputs, hgood⟩ := hx first hsplit.1
    obtain ⟨hmore, hvalue⟩ := hf a (hgood a rfl) (first + Visit.spans entries) hsplit.2
    exact ⟨List.forall_mem_append.2 ⟨houtputs, hmore⟩, hvalue⟩

theorem imp {wide : α → Prop} (hx : Keeps good x) (himp : ∀ a, good a → wide a) : Keeps wide x :=
  fun first hwhole => ⟨(hx first hwhole).1, fun a ha => himp a ((hx first hwhole).2 a ha)⟩

/-- The value of a node is whole if what is inside it gives a whole one, or if the node is a substring
operation: then a broken value would be a cut. -/
theorem node {view : NodeView} {value : Traced Json}
    (hinput : view.operation = Operator.substring.name → view.input = none)
    (hvalue : Keeps (fun v => view.operation ≠ Operator.substring.name → v.isUtf8) value) :
    Keeps (fun v => v.isUtf8) (Observer.node view value) := by
  rcases value with ⟨entries, e | v⟩
  · refine fun _ _ => ⟨List.forall_mem_singleton.2 rfl, fun _ h => by cases h⟩
  · intro first hwhole
    have hsteps : Visit.Whole first (Traced.node view ⟨entries, .ok v⟩).entries := hwhole
    simp only [Visit.Whole, Traced.node, TraceStep.ofVisits, TraceStep.ofVisit, List.append_nil,
      List.forall_mem_cons] at hsteps
    obtain ⟨hcut, hinside⟩ := hsteps
    obtain ⟨houtputs, hgood⟩ := hvalue (first + 1) hinside
    have hv : v.isUtf8 := by
      by_cases hsubstring : view.operation = Operator.substring.name
      · -- what the node got are the outputs of its children, which are whole
        by_contra hbroken
        refine hcut ⟨hsubstring, ?_, Bool.eq_false_iff.2 hbroken⟩
        rw [hinput hsubstring]
        exact Json.itemsUtf8_iff.2 (List.forall_mem_map.2 houtputs)
      · exact hgood v rfl hsubstring
    refine ⟨List.forall_mem_singleton.2 hv, fun w hw => ?_⟩
    cases hw
    exact hv

end Keeps

end Traced

namespace Operator

theorem isUtf8_of_map {α : Type} {x : Except Error α} {f : α → Json} {v : Json}
    (hf : ∀ a, (f a).isUtf8) (hv : x.map f = .ok v) : v.isUtf8 := by
  cases x with
  | error e => cases hv
  | ok a =>
      cases hv
      exact hf a

theorem isUtf8_of_arithmetic {op : Operator} {values : List Json} {v : Json}
    (hv : op.arithmetic values = .ok v) : v.isUtf8 := by
  obtain ⟨_, -, hrest⟩ := bind_eq_ok.1 hv
  obtain ⟨operands, -, hrest⟩ := bind_eq_ok.1 hrest
  have hquotient : ∀ {y : Float} {result : Json}, result.isUtf8 →
      (if y == 0.0 then Json.null else result).isUtf8 := by
    intro y result hresult
    split
    · rfl
    · exact hresult
  split at hrest
  all_goals cases hrest
  -- division and remainder have no value for zero, and what has no case has none at all
  case h_5 | h_6 => exact hquotient (Json.isUtf8_ofNumber _)
  case h_9 => rfl
  all_goals exact Json.isUtf8_ofNumber _

theorem forall_isUtf8_mergeItems {values : List Json} (hvalues : ∀ v ∈ values, v.isUtf8) :
    ∀ v ∈ mergeItems values, v.isUtf8 := by
  intro v hv
  obtain ⟨w, hw, hv⟩ := List.mem_flatMap.1 hv
  have hutf8 := hvalues w hw
  split at hv
  · exact Json.itemsUtf8_iff.1 hutf8 v hv
  · exact List.mem_singleton.1 hv ▸ hutf8

theorem forall_isUtf8_namesOf {values : List Json} (hvalues : ∀ v ∈ values, v.isUtf8) :
    ∀ v ∈ namesOf values, v.isUtf8 := by
  unfold namesOf
  split
  · exact Json.itemsUtf8_iff.1 (hvalues _ List.mem_cons_self)
  · exact hvalues

theorem isUtf8_absentNames {data : Json} {names : List Json} (hnames : ∀ v ∈ names, v.isUtf8) :
    (Json.array (absentNames data names)).isUtf8 :=
  Json.itemsUtf8_iff.2 fun v hv => hnames v (List.mem_filter.1 hv).1

theorem isUtf8_of_absentUnlessEnough {data need names v : Json} (hnames : names.isUtf8)
    (hv : absentUnlessEnough data need names = .ok v) : v.isUtf8 := by
  unfold absentUnlessEnough at hv
  split at hv
  · cases hv
  · cases hv
    split
    · rfl
    · exact isUtf8_absentNames (Json.itemsUtf8_iff.1 hnames)
  · cases hv

theorem isValid_flatMap_display {values : List Json} (hvalues : ∀ v ∈ values, v.isUtf8) :
    Utf8.isValid (values.flatMap Json.display) := by
  induction values with
  | nil => rfl
  | cons v rest ih =>
      obtain ⟨hv, hrest⟩ := List.forall_mem_cons.1 hvalues
      rw [List.flatMap_cons]
      exact Utf8.isValid_append (Json.isValid_display hv) (ih hrest)

/-- All operators but one make whole values of whole ones. -/
theorem isUtf8_of_onValues {op : Operator} {data v : Json} {values : List Json}
    (hop : op ≠ .substring) (hvalues : ∀ v ∈ values, v.isUtf8) (hv : op.onValues data values = .ok v) :
    v.isUtf8 := by
  unfold onValues at hv
  split at hv
  -- comparisons and negations come to truth values
  case h_1 | h_2 | h_5 | h_6 | h_7 | h_8 | h_12 => exact isUtf8_of_map (fun _ => rfl) hv
  case h_3 | h_4 | h_9 | h_10 | h_11 =>
    cases hv
    rfl
  case h_13 =>
    cases hv
    exact isValid_flatMap_display hvalues
  case h_14 | h_15 => exact absurd rfl hop
  case h_16 =>
    cases hv
    exact Json.itemsUtf8_iff.2 (forall_isUtf8_mergeItems hvalues)
  case h_17 =>
    cases hv
    exact isUtf8_absentNames (forall_isUtf8_namesOf hvalues)
  case h_18 => exact isUtf8_of_absentUnlessEnough (hvalues _ (.tail _ (.head _))) hv
  case h_19 => exact isUtf8_of_arithmetic hv

end Operator

namespace Traced

theorem isUtf8_frame {current accumulator : Json} (hcurrent : current.isUtf8)
    (haccumulator : accumulator.isUtf8) : (Operator.frame current accumulator).data.isUtf8 := by
  have haccumulatorKey : Utf8.isValid "accumulator" := by decide +kernel
  have hcurrentKey : Utf8.isValid "current" := by decide +kernel
  exact Json.membersUtf8_iff.2 (List.forall_mem_cons.2 ⟨⟨haccumulatorKey, haccumulator⟩,
    List.forall_mem_singleton.2 ⟨hcurrentKey, hcurrent⟩⟩)

/-- Evaluations keep texts whole, but for the operator that cuts them. -/
def keepsTexts : Upkeep Traced where
  holds := Keeps
  pure := .pure
  bind := .bind
  mono := .imp
  sound v := v.isUtf8
  null := rfl
  bool _ := rfl
  array := Json.itemsUtf8_iff
  frame := isUtf8_frame
  follow? := Json.isUtf8_of_follow?
  isExempt op := op = .substring
  checkArity _ _ := .ofExcept fun _ _ => trivial
  arithmetic _ _ := .ofExcept fun _ => Operator.isUtf8_of_arithmetic
  onValues _ _ _ hvalues := .ofExcept fun _ hv hop => Operator.isUtf8_of_onValues hop hvalues hv

end Traced

namespace Expr

open Traced (Keeps keepsTexts)

variable {registry : Registry}

/-- All literals of the expression are whole. -/
def HasWholeLiterals (expr : Expr) : Prop :=
  ∀ value : Json, .literal value ∈ expr.nodes → value.isUtf8

theorem HasWholeLiterals.part {expr part : Expr} (h : expr.HasWholeLiterals)
    (hpart : part ∈ expr.parts) : part.HasWholeLiterals :=
  fun value hvalue => h value (nodes_subset_of_mem_parts hpart hvalue)

/-- What a substring operation works on are its arguments. -/
theorem input_view_of_substring {expr : Expr} (hname : expr.view.operation = Operator.substring.name) :
    expr.view.input = none := by
  have hliteral : Bytes.ofString "literal" ≠ Operator.substring.name := by decide +kernel
  have hvar : Bytes.ofString "var" ≠ Operator.substring.name := by decide +kernel
  cases expr with
  | literal value => exact absurd hname hliteral
  | var path default => exact absurd hname hvar
  | array items | operation operator args => rfl

/-- Without registered operators the one that cuts is the one with its name. -/
theorem keeps_operationMeaning (hregistry : registry.operators = []) (operator : Bytes)
    {args : List (Meaning Traced)} (hargs : ∀ arg ∈ args, keepsTexts.Keeps arg) {scope : Scope}
    (hdata : scope.data.isUtf8) :
    Keeps (fun v => operator ≠ Operator.substring.name → v.isUtf8)
      (operationMeaning registry operator args scope) := by
  unfold operationMeaning
  cases hname : Operator.ofName? operator with
  | some op =>
      have hop : op.name = operator := by
        rw [Operator.ofName?] at hname
        simpa using List.find?_some hname
      refine (Upkeep.run op hargs hdata).imp fun v hv hother => hv ?_
      rintro rfl
      exact hother hop.symm
  | none =>
      have hfind : registry.find? operator = none := by rw [Registry.find?, hregistry]; rfl
      rw [hfind]
      exact .fail _

mutual

/-- An expression with whole literals comes to whole values. -/
theorem keeps_meaning (hregistry : registry.operators = []) : ∀ {expr : Expr},
    expr.HasWholeLiterals → keepsTexts.Keeps (expr.meaning registry)
  | .literal value, hliterals, _, _ =>
      .node input_view_of_substring
        (.pure fun _ => hliterals value (self_mem_nodes _))
  | .array items, hliterals, scope, hdata =>
      have hitems := keeps_meanings hregistry fun item hitem => hliterals.part hitem
      .node input_view_of_substring
        ((Upkeep.evaluateAll hitems hdata).bind fun _ hvalues =>
          .pure fun _ => Json.itemsUtf8_iff.2 hvalues)
  | .var path none, _, scope, hdata =>
      .node input_view_of_substring
        ((Upkeep.varMeaning path (fun _ h => by cases h) scope hdata).imp fun _ hv _ => hv)
  | .var path (some default), hliterals, scope, hdata =>
      have hdefault : keepsTexts.Keeps (default.meaning registry) :=
        keeps_meaning hregistry (hliterals.part List.mem_cons_self)
      .node input_view_of_substring
        ((Upkeep.varMeaning path (fun _ h => Option.some.inj h ▸ hdefault) scope hdata).imp
          fun _ hv _ => hv)
  | .operation operator args, hliterals, scope, hdata =>
      have hargs := keeps_meanings hregistry fun item hitem => hliterals.part hitem
      .node input_view_of_substring (keeps_operationMeaning hregistry operator hargs hdata)

theorem keeps_meanings (hregistry : registry.operators = []) : ∀ {items : List Expr},
    (∀ item ∈ items, HasWholeLiterals item) → ∀ arg ∈ meanings registry items, keepsTexts.Keeps arg
  | [], _ => List.forall_mem_nil _
  | _ :: _, hitems =>
      have hparts := List.forall_mem_cons.1 hitems
      List.forall_mem_cons.2 ⟨keeps_meaning hregistry hparts.1, keeps_meanings hregistry hparts.2⟩

end

/-! ### Expressions that are read -/

theorem exists_mem_nodes_of_itemsNodes {node : Expr} : ∀ {items : List Expr},
    node ∈ itemsNodes items → ∃ item ∈ items, node ∈ item.nodes
  | [], hnode => by cases hnode
  | first :: rest, hnode => by
      rcases List.mem_append.1 hnode with hfirst | hrest
      · exact ⟨first, List.mem_cons_self, hfirst⟩
      · obtain ⟨item, hitem, hinside⟩ := exists_mem_nodes_of_itemsNodes hrest
        exact ⟨item, List.mem_cons_of_mem _ hitem, hinside⟩

/-- What is in an expression is the expression itself or in a part of it. -/
theorem eq_or_mem_part_of_mem_nodes {node expr : Expr} (hnode : node ∈ expr.nodes) :
    node = expr ∨ ∃ part ∈ expr.parts, node ∈ part.nodes := by
  cases expr with
  | literal value => exact .inl (List.mem_singleton.1 hnode)
  | array items | operation operator items =>
      exact (List.mem_cons.1 hnode).imp_right exists_mem_nodes_of_itemsNodes
  | var path default =>
      cases default with
      | none => exact .inl (List.mem_singleton.1 hnode)
      | some default =>
          exact (List.mem_cons.1 hnode).imp_right fun h => ⟨default, List.mem_cons_self, h⟩

/-- Only a literal has a literal that is in none of its parts. -/
theorem hasWholeLiterals_of_parts {expr : Expr} (hself : ∀ value, expr ≠ .literal value)
    (hparts : ∀ part ∈ expr.parts, part.HasWholeLiterals) : expr.HasWholeLiterals := by
  intro value hvalue
  rcases eq_or_mem_part_of_mem_nodes hvalue with heq | ⟨part, hpart, hinside⟩
  · exact absurd heq.symm (hself value)
  · exact hparts part hpart value hinside

mutual

/-- The literals of an expression are parts of the value that spells it. -/
theorem hasWholeLiterals_of_spells {wire : Json} {expr : Expr} (h : Spells wire expr)
    (hwire : wire.isUtf8) : expr.HasWholeLiterals := by
  cases h with
  | scalar hscalar =>
      intro value hvalue
      cases List.mem_singleton.1 hvalue
      exact hwire
  | array hitems =>
      exact hasWholeLiterals_of_parts (fun _ h => by cases h)
        (hasWholeLiterals_of_itemsSpell hitems (Json.itemsUtf8_iff.1 hwire))
  | noPath | path _ | listedPath _ =>
      exact hasWholeLiterals_of_parts (fun _ h => by cases h) (List.forall_mem_nil _)
  | default hpath hdefault =>
      have hargs := (Json.membersUtf8_iff.1 hwire _ List.mem_cons_self).2
      have hvalue := Json.itemsUtf8_iff.1 hargs _ (.tail _ (.head _))
      exact hasWholeLiterals_of_parts (fun _ h => by cases h)
        (List.forall_mem_singleton.2 (hasWholeLiterals_of_spells hdefault hvalue))
  | operation hvar hargs =>
      have hitems := (Json.membersUtf8_iff.1 hwire _ List.mem_cons_self).2
      exact hasWholeLiterals_of_parts (fun _ h => by cases h)
        (hasWholeLiterals_of_itemsSpell hargs (Json.itemsUtf8_iff.1 hitems))
  | onlyArg hvar harray harg =>
      have hvalue := (Json.membersUtf8_iff.1 hwire _ List.mem_cons_self).2
      exact hasWholeLiterals_of_parts (fun _ h => by cases h)
        (List.forall_mem_singleton.2 (hasWholeLiterals_of_spells harg hvalue))

theorem hasWholeLiterals_of_itemsSpell {items : List Json} {exprs : List Expr}
    (h : ItemsSpell items exprs) (hitems : ∀ v ∈ items, v.isUtf8) :
    ∀ expr ∈ exprs, expr.HasWholeLiterals := by
  cases h with
  | nil => exact List.forall_mem_nil _
  | cons hitem hrest =>
      rw [List.forall_mem_cons] at hitems
      exact List.forall_mem_cons.2 ⟨hasWholeLiterals_of_spells hitem hitems.1,
        hasWholeLiterals_of_itemsSpell hrest hitems.2⟩

end

/-- If no step of its trace cuts a character, an evaluation of an expression of whole texts on whole data
comes to a whole value. -/
theorem isUtf8_of_eval (hregistry : registry.operators = []) {wire context value : Json} {expr : Expr}
    (hread : ofJson wire = .ok expr) (hwire : wire.isUtf8) (hcontext : context.isUtf8)
    (hsteps : ∀ step ∈ expr.trace registry context, ¬step.CutsCharacter)
    (hvalue : expr.eval registry context = .ok value) : value.isUtf8 := by
  have hliterals := hasWholeLiterals_of_spells (ofJson_eq_ok_iff.1 hread).1 hwire
  have hkeeps := keeps_meaning hregistry hliterals ⟨context, false⟩ hcontext
  exact (hkeeps 0 hsteps).2 value ((outcome_evalTraced registry expr context).trans hvalue)

end Expr

end CampaignRules
