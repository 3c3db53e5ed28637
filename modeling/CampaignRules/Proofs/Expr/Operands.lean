import CampaignRules.Expr.Eval
import Mathlib.Data.List.Forall2

/-! # Operators on values

Most operators work on the values of their arguments and on nothing else of them. Where all arguments
have values, and they are as many as the operator takes, such an operation comes to what the operator
makes of the values. -/

namespace CampaignRules

namespace Operator

/-- All arguments are evaluated before the operator works on their values. -/
def isEager : Operator → Bool
  | .ifThen | .ternary | .and | .or | .map | .filter | .reduce | .all | .none | .some => false
  | _ => true

variable {scope : Scope} {args : List (Meaning (Except Error))} {values : List Json} {op : Operator}

theorem evaluateAll_of_forall₂
    (hvalues : List.Forall₂ (fun arg value => arg scope = .ok value) args values) :
    evaluateAll scope args = .ok values := by
  induction hvalues with
  | nil => rfl
  | cons hvalue _ ih =>
      rw [evaluateAll, hvalue, ih]
      rfl

theorem run_of_isEager (hop : op.isEager) (hcount : op.arity.admits args.length)
    (hvalues : evaluateAll scope args = .ok values) :
    op.run args scope = op.onValues scope.data values := by
  have hcheck : op.checkArity args.length = .ok () := if_pos hcount
  have happlied : ∀ f : List Json → Except Error Json,
      (evaluateAll scope args >>= fun values => Observer.ofExcept (f values)) = f values := by
    intro f
    rw [hvalues]
    show Observer.ofExcept (f values) = f values
    cases f values <;> rfl
  unfold run
  split
  · cases op with
    | add | subtract | multiply | divide | remainder | minimum | maximum => exact happlied _
    | _ => contradiction
  · rw [hcheck]
    cases op with
    | ifThen | ternary | and | or | map | filter | reduce | all | none | some => cases hop
    | _ => exact happlied _

end Operator

namespace Expr

variable {registry : Registry} {scope : Scope} {args : List Expr} {values : List Json}

theorem forall₂_meanings
    (hvalues : List.Forall₂ (fun arg value => arg.meaning registry scope = (.ok value : Except Error Json))
      args values) :
    List.Forall₂ (fun (arg : Meaning (Except Error)) value => arg scope = .ok value)
      (meanings registry args) values := by
  induction hvalues with
  | nil => exact .nil
  | cons hvalue _ ih => exact .cons hvalue ih

/-- An operator that works on values makes of the values of its arguments what it would make of any
such values. -/
theorem meaning_of_isEager {op : Operator} (hop : op.isEager) (hcount : op.arity.admits args.length)
    (hvalues : List.Forall₂ (fun arg value => arg.meaning registry scope = (.ok value : Except Error Json))
      args values) :
    (operation op.name args).meaning registry scope = op.onValues scope.data values := by
  rw [meaning_operation]
  exact Operator.run_of_isEager hop (by rwa [length_meanings])
    (Operator.evaluateAll_of_forall₂ (forall₂_meanings hvalues))

end Expr

end CampaignRules
