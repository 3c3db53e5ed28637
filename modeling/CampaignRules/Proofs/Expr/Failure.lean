import CampaignRules.Expr.Eval
import CampaignRules.Proofs.Expr.Reads
import CampaignRules.Proofs.Expr.Upkeep
import CampaignRules.Proofs.Failure

/-! # Failures of expressions

Reading and the standard operators know two kinds of error only, a malformed expression and a value
of the wrong type. What else an evaluation fails with comes from an operator that is not known, or
from a registered one; the failures of a registered operator that have no kind are reported as this
operator's. So whatever goes wrong in an expression can be reported. -/

namespace CampaignRules

/-- The errors that reading an expression and the standard operators know. -/
def Error.IsStandardFault : Error → Prop
  | .typeMismatch _ | .malformedExpression _ => True
  | _ => False

theorem Error.IsStandardFault.isReportable {e : Error} (h : e.IsStandardFault) :
    e.IsReportable := by
  cases e with
  | typeMismatch _ | malformedExpression _ => rfl
  | _ => cases h

/-- The computation fails with such errors at most. -/
abbrev FaultsOnly {α : Type} (x : Except Error α) : Prop :=
  FailsOnly Error.IsStandardFault x

/-- All failures of the computation can be reported. -/
abbrev Reportable {α : Type} (x : Except Error α) : Prop :=
  FailsOnly Error.IsReportable x

namespace Expr

theorem faultsOnly_varPath (value : Json) : FaultsOnly (varPath value) := by
  cases value with
  | null | string _ | unsigned _ | signed _ => exact .ok _
  | _ => exact .error trivial

mutual

theorem faultsOnly_ofJsonAt (level : Nat) (value : Json) : FaultsOnly (ofJsonAt level value) := by
  unfold ofJsonAt
  split
  · exact .error trivial
  · split
    · rename_i items
      exact (faultsOnly_ofJsonItems (level + 1) items).bind fun _ => .ok _
    · split
      · split
        · exact .ok _
        · exact (faultsOnly_varPath _).bind fun _ => .ok _
        · rename_i path default
          exact (faultsOnly_ofJsonAt (level + 1) default).bind fun _ =>
            (faultsOnly_varPath path).bind fun _ => .ok _
        · exact .error trivial
        · exact (faultsOnly_varPath _).bind fun _ => .ok _
      · split
        · rename_i items
          exact (faultsOnly_ofJsonItems (level + 1) items).bind fun _ => .ok _
        · rename_i arg _ _ _
          exact (faultsOnly_ofJsonAt (level + 1) arg).bind fun _ => .ok _
    · exact .error trivial
    · exact .ok _

theorem faultsOnly_ofJsonItems (level : Nat) (items : List Json) :
    FaultsOnly (ofJsonItems level items) := by
  cases items with
  | nil =>
      unfold ofJsonItems
      exact .ok []
  | cons item rest =>
      unfold ofJsonItems
      exact (faultsOnly_ofJsonAt level item).bind fun _ =>
        (faultsOnly_ofJsonItems level rest).bind fun _ => .ok _

end

theorem reportable_ofJson (value : Json) : Reportable (ofJson value) :=
  (faultsOnly_ofJsonAt 1 value).mono fun _ => Error.IsStandardFault.isReportable

end Expr

namespace Json

theorem faultsOnly_toNumber (v : Json) : FaultsOnly v.toNumber := by
  unfold toNumber
  split
  · exact .ok _
  · exact .ok _
  · exact .ok _
  · split
    · exact .ok _
    · exact .error trivial

theorem faultsOnly_operand (operator : Bytes) (v : Json) : FaultsOnly (operand operator v) := by
  unfold operand
  split
  · split
    · exact .ok _
    · exact .error trivial
  · split
    · exact .ok _
    · exact .error trivial

theorem faultsOnly_compareNumbers (rel : Float → Float → Bool) (a b : Json) :
    FaultsOnly (compareNumbers rel a b) := by
  refine (faultsOnly_toNumber a).bind fun x => (faultsOnly_toNumber b).bind fun y => ?_
  split
  · exact .ok _
  · exact .ok _

theorem faultsOnly_looselyEqual (a b : Json) : FaultsOnly (looselyEqual a b) := by
  unfold looselyEqual
  split
  · exact .error trivial
  · split
    · exact .ok _
    · exact .ok _
    · exact .ok _
    · exact .ok _
    · exact .ok _
    · exact faultsOnly_compareNumbers _ a b

theorem faultsOnly_compareScalars (texts : Bytes → Bytes → Bool) (numbers : Float → Float → Bool)
    (a b : Json) : FaultsOnly (compareScalars texts numbers a b) := by
  unfold compareScalars
  split
  · exact .error trivial
  · split
    · exact .ok _
    · exact faultsOnly_compareNumbers _ a b

end Json

namespace Operator

theorem faultsOnly_checkArity (op : Operator) (count : Nat) : FaultsOnly (op.checkArity count) := by
  unfold checkArity
  split
  · exact .ok ()
  · exact .error trivial

theorem faultsOnly_chain {holds : Json → Json → Except Error Bool}
    (hholds : ∀ a b, FaultsOnly (holds a b)) : ∀ values, FaultsOnly (chain holds values)
  | a :: b :: rest => by
      refine (hholds a b).bind fun holding => ?_
      split
      · exact faultsOnly_chain hholds (b :: rest)
      · exact .ok false
  | [] | [_] => .ok true

theorem faultsOnly_arithmetic (op : Operator) (values : List Json) :
    FaultsOnly (op.arithmetic values) := by
  refine (faultsOnly_checkArity op _).bind fun _ => ?_
  refine (FailsOnly.mapM fun v => Json.faultsOnly_operand op.name v).bind fun operands => ?_
  split
  all_goals exact .ok _

theorem faultsOnly_isElement (needle haystack : Json) : FaultsOnly (isElement needle haystack) := by
  cases haystack with
  | null | string _ | array _ => exact .ok _
  | _ => exact .error trivial

theorem faultsOnly_position (v : Json) : FaultsOnly (position v) := by
  refine (Json.faultsOnly_toNumber v).bind fun found => ?_
  cases found with
  | some x => exact .ok _
  | none => exact .ok _

theorem faultsOnly_substringOf (text : Bytes) (start : Json) (count : Option Json) :
    FaultsOnly (substringOf text start count) := by
  refine (faultsOnly_position start).bind fun first => ?_
  split
  · exact .ite (.ok _) (.ok _)
  · exact .ite (.ok _) (.ok _)
  · exact .ite (.ok _) ((faultsOnly_position _).bind fun _ => .ok _)

theorem faultsOnly_absentUnlessEnough (data need names : Json) :
    FaultsOnly (absentUnlessEnough data need names) := by
  unfold absentUnlessEnough
  split
  · exact .error trivial
  · exact .ok _
  · exact .error trivial

theorem faultsOnly_onValues (op : Operator) (data : Json) (values : List Json) :
    FaultsOnly (op.onValues data values) := by
  unfold onValues
  split
  · exact (Json.faultsOnly_looselyEqual _ _).map _
  · exact (Json.faultsOnly_looselyEqual _ _).map _
  · exact .ok _
  · exact .ok _
  · exact (Json.faultsOnly_compareScalars _ _ _ _).map _
  · exact (Json.faultsOnly_compareScalars _ _ _ _).map _
  · exact (faultsOnly_chain (fun a b => Json.faultsOnly_compareScalars _ _ a b) _).map _
  · exact (faultsOnly_chain (fun a b => Json.faultsOnly_compareScalars _ _ a b) _).map _
  · exact .ok _
  · exact .ok _
  · exact .ok _
  · exact (faultsOnly_isElement _ _).map _
  · exact .ok _
  · exact (faultsOnly_substringOf _ _ _).map _
  · exact (faultsOnly_substringOf _ _ _).map _
  · exact .ok _
  · exact .ok _
  · exact faultsOnly_absentUnlessEnough data _ _
  · exact faultsOnly_arithmetic op values

variable {P : Error → Prop}

theorem failsOnly_ofExcept {α : Type} {x : Except Error α} (hx : FailsOnly P x) :
    FailsOnly P (Observer.ofExcept x : Except Error α) := by
  cases x with
  | ok a => exact .ok a
  | error e => exact .error (hx e rfl)

/-- Evaluations stay within a bound for the standard faults, whatever values they are about. -/
def staysWithin (hfault : ∀ e : Error, e.IsStandardFault → P e) : Upkeep (Except Error) where
  holds good x := FailsOnly P x ∧ ∀ a, x = .ok a → good a
  pure ha := ⟨.ok _, fun _ h => Except.ok.inj h ▸ ha⟩
  bind {α β _ _ x f} hx hf := by
    cases x with
    | error e => exact ⟨.error (hx.1 e rfl), fun _ h => by cases h⟩
    | ok a => exact hf a (hx.2 a rfl)
  mono hx himp := ⟨hx.1, fun a ha => himp a (hx.2 a ha)⟩
  sound _ := True
  null := trivial
  bool _ := trivial
  array := by simp
  frame _ _ := trivial
  follow? _ _ := trivial
  isExempt _ := False
  checkArity op count :=
    ⟨failsOnly_ofExcept ((faultsOnly_checkArity op count).mono hfault), fun _ _ => trivial⟩
  arithmetic op values :=
    ⟨failsOnly_ofExcept ((faultsOnly_arithmetic op values).mono hfault), fun _ _ => trivial⟩
  onValues op data values _ :=
    ⟨failsOnly_ofExcept ((faultsOnly_onValues op data values).mono hfault), fun _ _ _ => trivial⟩

end Operator

/-! ### Expressions -/

/-- A registered operator fails with its own errors, or with an error of the wrong type. -/
theorem CustomOperator.failsOnly_result {P : Error → Prop} {op : CustomOperator} {args : List Json}
    {data : Json} (happly : ∀ e, op.apply args data = .error e → e.IsReportable → P e)
    (hfault : ∀ e : Error, e.IsStandardFault → P e) : FailsOnly P (op.result args data) := by
  unfold result
  split
  · exact .ok _
  · rename_i e hfailed
    split
    · rename_i hkind
      exact .error (happly e hfailed hkind)
    · exact .error (hfault _ trivial)

/-- The bound holds of the standard faults, and of the errors with a kind that a registered operator
fails with itself. -/
structure Registry.FailsWithin (registry : Registry) (P : Error → Prop) : Prop where
  standard : ∀ e : Error, e.IsStandardFault → P e
  registered : ∀ op ∈ registry.operators, ∀ args data e,
    op.apply args data = .error e → e.IsReportable → P e

namespace Expr

open Operator (failsOnly_ofExcept ofName? staysWithin)

variable {P : Error → Prop} {registry : Registry}

theorem staysWithin_operationMeaning (hbound : registry.FailsWithin P) {operator : Bytes}
    {args : List (Meaning (Except Error))}
    (hunknown : ofName? operator = none → registry.find? operator = none →
      P (.unknownOperator operator))
    (hargs : ∀ arg ∈ args, (staysWithin hbound.standard).Keeps arg) :
    (staysWithin hbound.standard).Keeps (operationMeaning registry operator args) := by
  intro scope hdata
  unfold operationMeaning
  cases hname : ofName? operator with
  | some op => exact Upkeep.mono _ (Upkeep.run op hargs hdata) fun _ _ => trivial
  | none =>
      cases hfind : registry.find? operator with
      | some custom =>
          have hmem : custom ∈ registry.operators := List.mem_of_find?_eq_some hfind
          refine Upkeep.bind _ (Upkeep.evaluateAll hargs hdata) fun values _ => ⟨?_, fun _ _ => trivial⟩
          exact failsOnly_ofExcept (CustomOperator.failsOnly_result
            (hbound.registered custom hmem values scope.data) hbound.standard)
      | none => exact ⟨.error (hunknown hname hfind), fun _ _ => trivial⟩

mutual

/-- The failures of an expression are within the bound if the bound holds of its operators that are
not known. -/
theorem staysWithin_meaning (hbound : registry.FailsWithin P) : ∀ expr : Expr,
    (∀ name ∈ expr.operators, ofName? name = none → registry.find? name = none →
      P (.unknownOperator name)) →
    (staysWithin hbound.standard).Keeps (meaning registry expr)
  | .literal value, _, _, _ => ⟨.ok value, fun _ _ => trivial⟩
  | .array items, hunknown, _, hdata =>
      Upkeep.bind _ (Upkeep.evaluateAll (staysWithin_meanings hbound items hunknown) hdata)
        fun _ _ => Upkeep.pure _ trivial
  | .var path none, _, scope, hdata => Upkeep.varMeaning path (by simp) scope hdata
  | .var path (some default), hunknown, scope, hdata =>
      Upkeep.varMeaning path (by simpa using staysWithin_meaning hbound default hunknown) scope hdata
  | .operation operator args, hunknown, scope, hdata =>
      have hoperators := List.forall_mem_cons.1 hunknown
      staysWithin_operationMeaning hbound hoperators.1
        (staysWithin_meanings hbound args hoperators.2) scope hdata

theorem staysWithin_meanings (hbound : registry.FailsWithin P) : ∀ items : List Expr,
    (∀ name ∈ itemsOperators items, ofName? name = none → registry.find? name = none →
      P (.unknownOperator name)) →
    ∀ arg ∈ meanings registry items, (staysWithin hbound.standard).Keeps arg
  | [], _ => List.forall_mem_nil _
  | item :: rest, hunknown =>
      have hoperators := List.forall_mem_append.1 hunknown
      List.forall_mem_cons.2
        ⟨staysWithin_meaning hbound item hoperators.1, staysWithin_meanings hbound rest hoperators.2⟩

end

/-- An evaluation gives a value or fails with an error that can be reported, whatever operators are
registered. -/
theorem reportable_eval (registry : Registry) (expr : Expr) (context : Json) :
    Reportable (expr.eval registry context) :=
  have hbound : registry.FailsWithin Error.IsReportable :=
    ⟨fun _ => Error.IsStandardFault.isReportable, fun _ _ _ _ _ _ hkind => hkind⟩
  (staysWithin_meaning hbound expr (fun _ _ _ _ => rfl) ⟨context, false⟩ trivial).1

end Expr

end CampaignRules
