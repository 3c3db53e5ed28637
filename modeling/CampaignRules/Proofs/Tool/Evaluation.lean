import CampaignRules.Proofs.Expr.Texts
import CampaignRules.Proofs.Tool.Failure

/-! # Evaluations as answers

The tool for expressions answers with the evaluation, and with an error if the evaluation fails. It also
writes the value down, which can be done only if the value is made of texts of UTF-8. -/

namespace CampaignRules

namespace Engine

/-- What an engine traces is the evaluation of the expression that it reads. -/
theorem traced_of_ofJson {registry : Registry} {expression context : Json} {expr : Expr}
    (hread : Expr.ofJson expression = .ok expr) :
    traced registry expression context = (expr.eval registry context, expr.trace registry context) := by
  obtain ⟨added, hrun, hsteps, -⟩ := Expr.records_visits registry expr context []
  have hrecord : expr.record registry context #[] =
      ((expr.evalTraced registry context).outcome, added.toArray) := hrun
  rw [traced, hread]
  simp only [hrecord, Expr.outcome_evalTraced, hsteps, Expr.trace, List.length_nil]

theorem traced_of_ofJson_error {registry : Registry} {expression context : Json} {e : Error}
    (hread : Expr.ofJson expression = .error e) :
    traced registry expression context = (.error e, []) := by
  rw [traced, hread]

/-- An evaluation has the value and the trace that were recorded; if there is no value, it has a report
of the failure. -/
theorem exists_evaluation (engine : Engine) (expression context : Json) :
    ∃ e, (engine.evaluateExpression expression context).outcome = .ok e ∧
      e.trace = (traced engine.registry expression context).2 ∧
      ∀ value, e.outcome = .ok value ↔ (traced engine.registry expression context).1 = .ok value := by
  have hreportable := reportable_traced engine.registry expression context
  unfold evaluateExpression
  generalize traced engine.registry expression context = run at hreportable
  rcases run with ⟨failure | value, trace⟩
  · obtain ⟨report, hreport⟩ := (hreportable failure rfl).exists_report
    refine ⟨⟨.error report, trace⟩, ?_, rfl, fun value => ⟨fun h => ?_, fun h => ?_⟩⟩
    · dsimp only
      rw [hreport]
      rfl
    · cases h
    · cases h
  · refine ⟨⟨.ok value, trace⟩, rfl, rfl, fun other => ⟨fun h => ?_, fun h => ?_⟩⟩
    · cases h
      rfl
    · cases h
      rfl

/-- Without registered operators a value is broken only if a step of the trace cuts a character. -/
theorem exists_cut_of_evaluation {engine : Engine} {expression context value : Json} {e : Evaluation}
    (hregistry : engine.registry.operators = []) (hexpression : expression.isUtf8)
    (hcontext : context.isUtf8) (hevaluate : (engine.evaluateExpression expression context).outcome = .ok e)
    (hvalue : e.outcome = .ok value) (hbroken : value.isUtf8 = false) :
    ∃ step ∈ e.trace, step.CutsCharacter := by
  obtain ⟨found, hfound, htrace, houtcome⟩ := exists_evaluation engine expression context
  cases hevaluate.symm.trans hfound
  rw [houtcome value] at hvalue
  cases hread : Expr.ofJson expression with
  | error failure =>
      rw [traced_of_ofJson_error hread] at hvalue
      cases hvalue
  | ok expr =>
      rw [traced_of_ofJson hread] at hvalue htrace
      by_contra hnone
      have hwhole := Expr.isUtf8_of_eval hregistry hread hexpression hcontext
        (fun step hstep hcut => hnone ⟨step, htrace ▸ hstep, hcut⟩) hvalue
      exact Bool.false_ne_true (hbroken.symm.trans hwhole)

end Engine

namespace Tool

variable {tool : Tool} {now : Moment} {arguments expression : Json} {engine : Engine}

/-- What a call makes of the outcome of its tool: failures that can be reported are results, and so are
those of the JSON values in it, which count as failures of the arguments. -/
def answer : Except Error Result → Except Error Result
  | .ok result => .ok result
  | .error (.json failure) => .ok (.bareError ("Invalid arguments: " ++ failure.message))
  | .error e => e.report?.elim (.error e) fun report =>
      .ok (.error report.line
        (.ofMembers [("error", report.message), ("errorKind", report.kind.name)]))

theorem outcome_call (hobject : arguments.isObject) (hgiven : missing? tool.required arguments = none) :
    (tool.call now arguments engine).2.outcome = answer (tool.run now arguments engine).2.outcome := by
  unfold call
  rw [hobject, hgiven, if_neg (by decide)]
  dsimp only
  rw [Task.outcome_bind]
  show (Except.ok (tool.run now arguments engine).2.outcome).bind _ = _
  generalize (tool.run now arguments engine).2.outcome = ran
  rcases ran with e | result
  · cases e <;> rfl
  · rfl

/-- The tool evaluates the expression on the context, and then makes a result of it. -/
theorem outcome_run_evaluateExpression {e : Evaluation}
    (hexpression : arguments.get? "expression" = some expression)
    (hevaluate : (engine.evaluateExpression expression
      (valueArgumentOrEmpty "context" arguments)).outcome = .ok e) :
    (evaluateExpression.run now arguments engine).2.outcome = evaluationResult [] e := by
  have hvalue : valueArgument "expression" arguments = .ok expression := by
    rw [valueArgument, hexpression]
  unfold evaluateExpression
  dsimp only
  rw [Task.outcome_bind, hvalue]
  show ((Task.state >>= _ : Task Engine Result) engine).2.outcome = _
  rw [Task.outcome_bind]
  show ((Task.ofLogged _ >>= _ : Task Engine Result) engine).2.outcome = _
  rw [Task.outcome_bind]
  show ((engine.evaluateExpression expression _).outcome.bind _) = _
  rw [hevaluate]
  rfl

theorem missing?_expression (hexpression : arguments.get? "expression" = some expression)
    (hnull : expression.isNull = false) : missing? evaluateExpression.required arguments = none := by
  have hrequired : evaluateExpression.required = [Bytes.ofString "expression"] := rfl
  rw [hrequired, missing?, List.find?_cons_of_neg (by rw [hexpression]; simp [hnull])]
  rfl

/-- Without registered operators, and on texts of UTF-8, the tool answers with the evaluation of the
expression, and with an error if and only if the evaluation fails. The exception is a value with a broken
text in it: then the evaluation is lost and the arguments get the blame, and a step of the trace has cut
a character. -/
theorem evaluate_expression_answers (now : Moment) (engine : Engine) (arguments expression : Json)
    (hregistry : engine.registry.operators = [])
    (hexpression : arguments.get? "expression" = some expression) (hnull : expression.isNull = false)
    (hwire : expression.isUtf8) (hcontext : (valueArgumentOrEmpty "context" arguments).isUtf8) :
    ∃ e result,
      (engine.evaluateExpression expression (valueArgumentOrEmpty "context" arguments)).outcome = .ok e ∧
      (callNamed now "evaluate_expression" arguments engine).2.outcome = .ok result ∧
      (∀ report, e.outcome = .error report → result.isError = true ∧ result.structured = e.toJson) ∧
      ∀ value, e.outcome = .ok value →
        (value.isUtf8 → result.isError = false ∧ result.structured = e.toJson) ∧
        (value.isUtf8 = false →
          result = .bareError "Invalid arguments: [json.exception.type_error]" ∧
          ∃ step ∈ e.trace, step.CutsCharacter) := by
  have hobject : arguments.isObject := by
    cases arguments with
    | object members => rfl
    | _ => cases hexpression
  have hnamed : named? "evaluate_expression" = some evaluateExpression := rfl
  have hgiven := missing?_expression hexpression hnull
  obtain ⟨e, hevaluate, -⟩ := engine.exists_evaluation expression (valueArgumentOrEmpty "context" arguments)
  rw [callNamed, hnamed]
  dsimp only
  rw [outcome_call hobject hgiven, outcome_run_evaluateExpression hexpression hevaluate]
  cases houtcome : e.outcome with
  | error report =>
      have hresult : evaluationResult [] e = .ok (.error report.line e.toJson) := by
        rw [evaluationResult, houtcome]
      rw [hresult]
      refine ⟨e, _, hevaluate, rfl, fun _ _ => ⟨rfl, rfl⟩, fun value hvalue => ?_⟩
      cases houtcome.symm.trans hvalue
  | ok value =>
      refine ⟨e, (if value.isUtf8 then .ok value.render e.toJson
        else .bareError "Invalid arguments: [json.exception.type_error]"), hevaluate, ?_, ?_, ?_⟩
      · simp only [evaluationResult, houtcome, Json.render?]
        cases value.isUtf8 <;> rfl
      · intro report hreport
        cases houtcome.symm.trans hreport
      · intro found hfound
        cases houtcome.symm.trans hfound
        refine ⟨fun hwhole => ?_, fun hbroken => ?_⟩
        · rw [if_pos hwhole]
          exact ⟨rfl, rfl⟩
        · rw [hbroken]
          exact ⟨rfl, Engine.exists_cut_of_evaluation hregistry hwire hcontext hevaluate houtcome hbroken⟩

/-- A greeting is answered with its value, and an operator that nobody knows with an error. -/
theorem evaluate_expression_answers_greeting :
    let engine := Engine.ofSnapshot {} .empty .empty
    let greeting : Json := .object [("cat", .array ["Hail, ", .object [("var", "name")]])]
    let unknown : Json := .object [("greet", .array [])]
    let context : Json := .object [("name", "Ann")]
    let call := fun expression => callNamed ⟨0⟩ "evaluate_expression"
      (.object [("context", context), ("expression", expression)]) engine
    (∃ e result, (engine.evaluateExpression greeting context).outcome = .ok e ∧ e.outcome.isOk ∧
      (call greeting).2.outcome = .ok result ∧ result.isError = false ∧ result.structured = e.toJson) ∧
    ∃ e result, (engine.evaluateExpression unknown context).outcome = .ok e ∧ e.outcome.isOk = false ∧
      (call unknown).2.outcome = .ok result ∧ result.isError = true ∧ result.structured = e.toJson := by
  intro engine greeting unknown context call
  constructor
  · obtain ⟨e, result, hevaluate, hcall, -, hvalue⟩ := evaluate_expression_answers ⟨0⟩ engine
      (.object [("context", context), ("expression", greeting)]) greeting rfl rfl rfl
      (by decide +kernel) (by decide +kernel)
    obtain ⟨found, hfound, hok⟩ := exists_ok_of_any (engine.evaluateExpression greeting context).outcome
      (fun e => e.outcome.toOption.any Json.isUtf8) (by decide +kernel)
    cases hevaluate.symm.trans hfound
    cases houtcome : e.outcome with
    | error report =>
        rw [houtcome] at hok
        cases hok
    | ok value =>
        rw [houtcome] at hok
        exact ⟨e, result, hevaluate, by rw [houtcome]; rfl, hcall, (hvalue value houtcome).1 hok⟩
  · obtain ⟨e, result, hevaluate, hcall, hfailed, -⟩ := evaluate_expression_answers ⟨0⟩ engine
      (.object [("context", context), ("expression", unknown)]) unknown rfl rfl rfl
      (by decide +kernel) (by decide +kernel)
    obtain ⟨found, hfound, hok⟩ := exists_ok_of_any (engine.evaluateExpression unknown context).outcome
      (fun e => !e.outcome.isOk) (by decide +kernel)
    cases hevaluate.symm.trans hfound
    cases houtcome : e.outcome with
    | ok value =>
        rw [houtcome] at hok
        cases hok
    | error report =>
        exact ⟨e, result, hevaluate, by rw [houtcome]; rfl, hcall, hfailed report houtcome⟩

/-- Half a character is a value, but the call that comes to it is answered with an error. -/
theorem evaluate_expression_cut_character :
    let engine := Engine.ofSnapshot {} .empty .empty
    let expression : Json := .object [("substr", .array [.string [0xC3, 0xA9], .unsigned 0, .unsigned 1])]
    let arguments : Json := .object [("context", .object []), ("expression", expression)]
    arguments.isUtf8 ∧
    (∃ e, (engine.evaluateExpression expression (.object [])).outcome = .ok e ∧ e.outcome.isOk) ∧
    ∃ result, (callNamed ⟨0⟩ "evaluate_expression" arguments engine).2.outcome = .ok result ∧
      result.isError = true ∧ result.structured.isNull := by
  intro engine expression arguments
  obtain ⟨e, hevaluate, hok⟩ := exists_ok_of_any
    (engine.evaluateExpression expression (.object [])).outcome (·.outcome.isOk) (by decide +kernel)
  obtain ⟨result, hcall, hresult⟩ := exists_ok_of_any
    (callNamed ⟨0⟩ "evaluate_expression" arguments engine).2.outcome
    (fun result => result.isError && result.structured.isNull) (by decide +kernel)
  exact ⟨by decide +kernel, ⟨e, hevaluate, hok⟩, result, hcall, Bool.and_eq_true_iff.1 hresult⟩

end Tool

end CampaignRules
