import CampaignRules.Expr.Trace
import CampaignRules.Proofs.Expr.Simulation

/-! # Observation changes no outcome

An evaluation that records its visits comes to the value or the failure that it comes to when nobody
observes it: to forget the visits goes along with what computations are made of. -/

namespace CampaignRules

namespace Traced

/-- What a computation comes to, whatever visits it records. -/
def silenced : Simulation Traced (Except Error) where
  rel x y := x.outcome = y
  pure _ := rfl
  fail _ := rfl
  bind := by
    rintro α β ⟨entries, e | a⟩ _ f g rfl hf
    · rfl
    · exact hf a

theorem silenced_kept : silenced.KeptByNodes := by
  rintro view ⟨entries, e | v⟩ _ rfl
  all_goals rfl

end Traced

namespace Expr

/-- The value, or the failure, of a traced evaluation is that of an evaluation without a trace. -/
theorem outcome_evalTraced (registry : Registry) (expr : Expr) (context : Json) :
    (expr.evalTraced registry context).outcome = expr.eval registry context :=
  Simulation.meaning Traced.silenced_kept registry expr ⟨context, false⟩

end Expr

end CampaignRules
