import CampaignRules.Proofs.Expr.Operands
import CampaignRules.Proofs.Json.Numeric

/-! # Results of arithmetic

An arithmetic operator computes a float from its operands, and what is then handed on is that float
as a value. So a result keeps its worth unless it is `2 ^ 63`, at which the largest sums of words
arrive: they come out as the lowest word. -/

namespace CampaignRules

namespace Operator

/-- What the operator computes from its operands; nothing if it were to divide by zero. -/
def compute? : Operator → List Float → Option Float
  | .add, xs => Option.some (xs.foldl (· + ·) 0.0)
  | .multiply, xs => Option.some (xs.foldl (· * ·) 1.0)
  | .subtract, [x] => Option.some (-x)
  | .subtract, [x, y] => Option.some (x - y)
  | .divide, [x, y] => if y == 0.0 then Option.none else Option.some (x / y)
  | .remainder, [x, y] => if y == 0.0 then Option.none else Option.some (Binary64.remainder x y)
  | .minimum, x :: xs => Option.some (xs.foldl (fun best y => if y < best then y else best) x)
  | .maximum, x :: xs => Option.some (xs.foldl (fun best y => if best < y then y else best) x)
  | _, _ => Option.none

variable {op : Operator} {values : List Json} {operands : List Float}

theorem isEager_of_isArithmetic (hop : op.isArithmetic) : op.isEager := by
  cases op <;> first | rfl | cases hop

theorem onValues_of_isArithmetic (hop : op.isArithmetic) (data : Json) (values : List Json) :
    op.onValues data values = op.arithmetic values := by
  cases op <;> first | rfl | cases hop

theorem mapM_operand {f : Json → Except Error Float}
    (hoperands : List.Forall₂ (fun value x => f value = .ok x) values operands) :
    values.mapM f = .ok operands := by
  induction hoperands with
  | nil => rfl
  | cons hoperand _ ih =>
      rw [List.mapM_cons, hoperand, ih]
      rfl

theorem elim_ite (zero : Bool) (x : Float) :
    (if zero then Option.none else Option.some x).elim Json.null Json.ofNumber =
      if zero then .null else Json.ofNumber x := by
  cases zero <;> rfl

/-- The result of an arithmetic operator is what it computes, as a value. -/
theorem arithmetic_eq (hcount : op.arity.admits values.length)
    (hoperands : List.Forall₂ (fun value x => Json.operand op.name value = .ok x) values operands) :
    op.arithmetic values = .ok ((op.compute? operands).elim .null Json.ofNumber) := by
  have hcheck : op.checkArity values.length = .ok () := if_pos hcount
  unfold arithmetic
  rw [hcheck, mapM_operand hoperands]
  cases op with
  | subtract => rcases operands with _ | ⟨x, _ | ⟨y, _ | ⟨z, rest⟩⟩⟩ <;> rfl
  | divide | remainder =>
      rcases operands with _ | ⟨x, _ | ⟨y, _ | ⟨z, rest⟩⟩⟩
      · rfl
      · rfl
      · exact congrArg Except.ok (elim_ite _ _).symm
      · rfl
  | minimum | maximum => cases operands <;> rfl
  | _ => rfl

end Operator

namespace Expr

open Operator Binary64

/-- A finite number is worth the same as a value: it is a word if it is whole and a word can hold it,
and a float otherwise. There is one exception, `2 ^ 63`, which becomes the lowest word. And that value
is what an arithmetic operator results in whenever it computes the number. -/
theorem arithmetic_exact {x : Float} {r : ℚ} (hvalue : (ofFloat x).value? = some r) :
    (r ≠ 2 ^ 63 → (Json.ofNumber x).StandsFor x r) ∧
    (r = 2 ^ 63 → Json.ofNumber x = .signed Int64.minValue) ∧
    ∀ {registry : Registry} {scope : Scope} {op : Operator} {args : List Expr} {values : List Json}
      {operands : List Float}, op.isArithmetic → op.arity.admits args.length →
      List.Forall₂ (fun arg value => arg.meaning registry scope = (.ok value : Except Error Json))
        args values →
      List.Forall₂ (fun value operand => Json.operand op.name value = .ok operand) values operands →
      op.compute? operands = some x →
      (operation op.name args).meaning registry scope = (.ok (Json.ofNumber x) : Except Error Json) := by
  refine ⟨Json.ofNumber_standsFor hvalue, fun htop => Json.ofNumber_top (by rw [hvalue, htop]), ?_⟩
  intro registry scope op args values operands hop hcount hvalues hoperands hcompute
  have hadmits : op.arity.admits values.length := by rwa [← hvalues.length_eq]
  rw [meaning_of_isEager (isEager_of_isArithmetic hop) hcount hvalues, onValues_of_isArithmetic hop,
    arithmetic_eq hadmits hoperands, hcompute]
  rfl

/-- The largest number below the limit is a word, and twice the limit is a float. -/
theorem arithmetic_exact_limit :
    let sum : Expr :=
      .operation "+" [.literal (.signed 9223372036854773760), .literal (.unsigned 1024)]
    let product : Expr :=
      .operation "*" [.literal (.unsigned 4294967296), .literal (.float 4294967296.0)]
    sum.meaning .empty ⟨.null, false⟩ = (.ok (.signed 9223372036854774784) : Except Error Json) ∧
    ∃ v, product.meaning .empty ⟨.null, false⟩ = (.ok v : Except Error Json) ∧
      v.quotient? = some (2 ^ 64) := by
  intro sum product
  have hsum : (ofFloat 9223372036854774784.0).value? = some ((9223372036854774784 : Int) : ℚ) := by
    have hbits : ofFloat 9223372036854774784.0 = .finite false (2 ^ 53 - 1) 10 := rfl
    rw [hbits, value?]
    norm_num
  have hproduct : (ofFloat 18446744073709551616.0).value? = some (2 ^ 64) := by
    have hbits : ofFloat 18446744073709551616.0 = .finite false (2 ^ 52) 12 := rfl
    rw [hbits, value?]
    norm_num
  obtain ⟨hword, -, hadds⟩ := arithmetic_exact hsum
  obtain ⟨hfloat, -, hmultiplies⟩ := arithmetic_exact hproduct
  have hterms : List.Forall₂ (fun v x => Json.operand Operator.add.name v = .ok x)
      [.signed 9223372036854773760, .unsigned 1024] [9223372036854773760.0, 1024.0] :=
    .cons rfl (.cons rfl .nil)
  have hfactors : List.Forall₂ (fun v x => Json.operand Operator.multiply.name v = .ok x)
      [.unsigned 4294967296, .float 4294967296.0] [4294967296.0, 4294967296.0] :=
    .cons rfl (.cons rfl .nil)
  refine ⟨?_, _, hmultiplies rfl rfl (.cons rfl (.cons rfl .nil)) hfactors rfl,
    (hfloat (by norm_num)).quotient⟩
  have hresult := (hword (by norm_num)).word _ rfl (by norm_num) (by norm_num)
  refine (hadds rfl rfl (.cons rfl (.cons rfl .nil)) hterms rfl).trans ?_
  rw [hresult]
  rfl

/-- One more than the largest word is a result that is whole, and comes out as the lowest word. -/
theorem sum_overflows :
    let sum : Expr := .operation "+" [.literal (.signed 9223372036854775807), .literal (.unsigned 1)]
    Operator.add.compute? [ofInt 9223372036854775807, ofInt 1] = some 9223372036854775808.0 ∧
      (ofFloat 9223372036854775808.0).value? = some (2 ^ 63) ∧
      sum.eval .empty .null = .ok (.signed Int64.minValue) := by
  have hbits : ofFloat 9223372036854775808.0 = .finite false (2 ^ 52) 11 := rfl
  refine ⟨rfl, ?_, rfl⟩
  rw [hbits, value?]
  norm_num

end Expr

end CampaignRules
