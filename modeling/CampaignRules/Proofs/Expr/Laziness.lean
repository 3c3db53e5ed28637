import CampaignRules.Proofs.Expr.Recording

/-! # Arguments that are not reached

Conjunctions, disjunctions and chains of tests evaluate their arguments one after the other, and no
more of them than they need. Which arguments an evaluation reaches follows from what the arguments
before them come to. Whatever stands at the other places, the evaluation comes to the same, and so does
its recording. -/

namespace CampaignRules.Expr

section

variable (registry : Registry) (scope : Scope)

/-- The argument at a place comes to a value of the given truth. -/
def ComesTo (truth : Bool) (args : List Expr) (place : Nat) : Prop :=
  ∃ arg value, args[place]? = some arg ∧
    (arg.meaning registry scope : Except Error Json) = .ok value ∧ value.truthy = truth

/-- The places of the arguments that an evaluation reaches. A conjunction goes on while its arguments
hold, and a disjunction while they do not. A chain goes on from test to test while none holds, the last
one being no test if no result follows it, and to the result of the first test that holds. -/
inductive Reaches : Operator → List Expr → Nat → Prop
  | and {args : List Expr} {place : Nat}
      (hbefore : ∀ j < place, ComesTo registry scope true args j) : Reaches .and args place
  | or {args : List Expr} {place : Nat}
      (hbefore : ∀ j < place, ComesTo registry scope false args j) : Reaches .or args place
  | test {op : Operator} {args : List Expr} {k : Nat} (hop : op = .ifThen ∨ op = .ternary)
      (hbefore : ∀ j < k, ComesTo registry scope false args (2 * j)) : Reaches op args (2 * k)
  | result {op : Operator} {args : List Expr} {k : Nat} (hop : op = .ifThen ∨ op = .ternary)
      (hbefore : ∀ j < k, ComesTo registry scope false args (2 * j))
      (htest : ComesTo registry scope true args (2 * k)) : Reaches op args (2 * k + 1)

end

variable {registry : Registry} {scope : Scope}

/-- How a recording goes on after an argument matters only for the value that the argument comes to. -/
theorem bind_congr_of_value {arg : Expr} {f g : Json → Recording Json}
    (hvalue : ∀ v, (arg.meaning registry scope : Except Error Json) = .ok v → f v = g v) :
    (arg.meaning registry scope : Recording Json) >>= f = arg.meaning registry scope >>= g := by
  funext held
  have houtcome := outcome_recording registry arg scope held
  rw [Recording.bind_eq, Recording.bind_eq]
  rcases hrun : (arg.meaning registry scope : Recording Json) held with ⟨e | v, slots⟩
  · rfl
  · rw [hrun] at houtcome
    exact congrFun (hvalue v houtcome.symm) slots

theorem firstDeciding_eq_of_reached (decides : Bool) : ∀ {args others : List Expr},
    args.length = others.length →
    (∀ i, (∀ j < i, ComesTo registry scope (!decides) args j) → args[i]? = others[i]?) →
    (Operator.firstDeciding decides scope (meanings registry args) : Recording Json) =
      Operator.firstDeciding decides scope (meanings registry others)
  | [], [], _, _ => rfl
  | [arg], [other], _, hagree => by
      obtain rfl : arg = other := Option.some.inj (hagree 0 nofun)
      rfl
  | arg :: next :: rest, other :: next' :: rest', hlength, hagree => by
      obtain rfl : arg = other := Option.some.inj (hagree 0 nofun)
      refine bind_congr_of_value fun v hv => ?_
      by_cases htruth : v.truthy = decides
      · rw [if_pos htruth, if_pos htruth]
      · rw [if_neg htruth, if_neg htruth]
        refine firstDeciding_eq_of_reached decides (Nat.succ.inj hlength) fun i hbefore => ?_
        refine hagree (i + 1) fun j hj => ?_
        cases j with
        | zero => exact ⟨arg, v, rfl, hv, Bool.eq_not_of_ne htruth⟩
        | succ j => exact hbefore j (Nat.lt_of_succ_lt_succ hj)

theorem firstResult_eq_of_reached : ∀ {args others : List Expr}, args.length = others.length →
    (∀ k, (∀ j < k, ComesTo registry scope false args (2 * j)) →
      args[2 * k]? = others[2 * k]? ∧
        (ComesTo registry scope true args (2 * k) → args[2 * k + 1]? = others[2 * k + 1]?)) →
    (Operator.firstResult scope (meanings registry args) : Recording Json) =
      Operator.firstResult scope (meanings registry others)
  | [], [], _, _ => rfl
  | [arg], [other], _, hagree => by
      obtain rfl : arg = other := Option.some.inj (hagree 0 nofun).1
      rfl
  | test :: result :: rest, other :: result' :: rest', hlength, hagree => by
      obtain ⟨htest, hresult⟩ := hagree 0 nofun
      obtain rfl : test = other := Option.some.inj htest
      refine bind_congr_of_value fun v hv => ?_
      by_cases htruth : v.truthy = true
      · obtain rfl : result = result' := Option.some.inj (hresult ⟨test, v, rfl, hv, htruth⟩)
        rw [if_pos htruth, if_pos htruth]
      · rw [if_neg htruth, if_neg htruth]
        refine firstResult_eq_of_reached (by simpa using hlength) fun k hbefore => ?_
        refine hagree (k + 1) fun j hj => ?_
        cases j with
        | zero => exact ⟨test, v, rfl, hv, Bool.eq_false_iff.2 htruth⟩
        | succ j => exact hbefore j (Nat.lt_of_succ_lt_succ hj)

/-- Operators hand their arguments to a loop, after a check of their number. -/
theorem run_eq_of_loop {op : Operator} {loop : List (Meaning Recording) → Recording Json}
    (hrun : ∀ args : List (Meaning Recording), op.run args scope =
      Observer.ofExcept (op.checkArity args.length) >>= fun _ => loop args)
    {args others : List Expr} (hlength : args.length = others.length)
    (hloop : loop (meanings registry args) = loop (meanings registry others)) :
    (op.run (meanings registry args) scope : Recording Json) =
      op.run (meanings registry others) scope := by
  rw [hrun, hrun, length_meanings, length_meanings, hlength, hloop]

theorem run_eq_of_reached {op : Operator} (hop : op ∈ [.and, .or, .ifThen, .ternary])
    {args others : List Expr} (hlength : args.length = others.length)
    (hagree : ∀ i, Reaches registry scope op args i → args[i]? = others[i]?) :
    (op.run (meanings registry args) scope : Recording Json) =
      op.run (meanings registry others) scope := by
  have hchain (hop : op = .ifThen ∨ op = .ternary) :
      (Operator.firstResult scope (meanings registry args) : Recording Json) =
        Operator.firstResult scope (meanings registry others) :=
    firstResult_eq_of_reached hlength fun k hbefore =>
      ⟨hagree _ (.test hop hbefore), fun htest => hagree _ (.result hop hbefore htest)⟩
  simp only [List.mem_cons, List.not_mem_nil, or_false] at hop
  rcases hop with rfl | rfl | rfl | rfl
  · refine run_eq_of_loop (fun _ => rfl) hlength ?_
    exact firstDeciding_eq_of_reached false hlength fun i hbefore => hagree i (.and hbefore)
  · refine run_eq_of_loop (fun _ => rfl) hlength ?_
    exact firstDeciding_eq_of_reached true hlength fun i hbefore => hagree i (.or hbefore)
  · exact run_eq_of_loop (fun _ => rfl) hlength (hchain (.inl rfl))
  · exact run_eq_of_loop (fun _ => rfl) hlength (hchain (.inr rfl))

/-- Arguments that an evaluation does not reach may be replaced by any others. The value or the failure
stays the same, and so does what is recorded, behind whatever was recorded before. -/
theorem unreached_arguments_irrelevant (registry : Registry) (scope : Scope) {op : Operator}
    (hop : op ∈ [.and, .or, .ifThen, .ternary]) {args others : List Expr}
    (hlength : args.length = others.length)
    (hagree : ∀ i, Reaches registry scope op args i → args[i]? = others[i]?) :
    ((operation op.name args).meaning registry scope : Except Error Json) =
        (operation op.name others).meaning registry scope ∧
      ((operation op.name args).meaning registry scope : Recording Json) =
        (operation op.name others).meaning registry scope := by
  have hrecording : ((operation op.name args).meaning registry scope : Recording Json) =
      (operation op.name others).meaning registry scope := by
    rw [meaning_operation, meaning_operation, run_eq_of_reached hop hlength hagree]
  refine ⟨?_, hrecording⟩
  rw [← outcome_recording registry _ scope #[], hrecording, outcome_recording]

/-- An inn that is full turns guests away, and does so too if what it asks of guests that it never gets
to see makes no sense. -/
theorem unreached_arguments_irrelevant_inn :
    let scope : Scope := ⟨.object [("full", .bool true), ("rooms", .array [])], false⟩
    let lodging (unreached final : Expr) : List Expr :=
      [.var "rooms" none, unreached, .var "full" none, .literal "no", final]
    let sense := operation "if" (lodging (.literal "yes") (.literal "ask"))
    let nonsense := operation "if" (lodging (.operation "welcome" []) (.operation "!" []))
    (sense.meaning .empty scope : Except Error Json) = .ok "no" ∧
      (nonsense.meaning .empty scope : Except Error Json) = .ok "no" ∧
      (sense.meaning .empty scope : Recording Json) = nonsense.meaning .empty scope := by
  intro scope lodging sense nonsense
  have hop : Operator.ifThen ∈ [.and, .or, .ifThen, .ternary] := by decide
  have hlength : (lodging (.literal "yes") (.literal "ask")).length =
      (lodging (.operation "welcome" []) (.operation "!" [])).length := rfl
  have hrooms : ¬ComesTo .empty scope true (lodging (.literal "yes") (.literal "ask")) 0 := by
    rintro ⟨_, _, ⟨⟩, ⟨⟩, ⟨⟩⟩
  have hfull : ¬ComesTo .empty scope false (lodging (.literal "yes") (.literal "ask")) 2 := by
    rintro ⟨_, _, ⟨⟩, ⟨⟩, ⟨⟩⟩
  obtain ⟨hvalue, hrecorded⟩ := unreached_arguments_irrelevant .empty scope hop hlength fun i h => by
    cases h with
    | @test _ _ k _ hbefore =>
        match k with
        | 0 | 1 => rfl
        | k + 2 => exact absurd (hbefore 1 (by omega)) hfull
    | @result _ _ k _ hbefore htest =>
        match k with
        | 0 => exact absurd htest hrooms
        | 1 => rfl
        | k + 2 => exact absurd (hbefore 1 (by omega)) hfull
  exact ⟨rfl, hvalue.symm, hrecorded⟩

end CampaignRules.Expr
