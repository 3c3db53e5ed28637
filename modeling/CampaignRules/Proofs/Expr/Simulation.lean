import CampaignRules.Expr.Eval
import Mathlib.Data.List.Forall2

/-! # Observers hand in hand

Two observers carry out the evaluation of one expression. If what they do is related at every return,
failure and bind, then it is related for every way in which an operator evaluates its arguments, hence
for the operators; and if a node keeps the relation too, for every expression in every scope. The
proofs follow the evaluation once, for all relations. -/

namespace CampaignRules

/-- A relation between the computations of two observers that goes along with what computations are
made of. -/
structure Simulation (m n : Type → Type) [Observer m] [Observer n] where
  rel {α : Type} : m α → n α → Prop
  pure {α : Type} (a : α) : rel (Pure.pure a) (Pure.pure a)
  fail {α : Type} (e : Error) : rel (Observer.fail e : m α) (Observer.fail e)
  bind {α β : Type} {x : m α} {y : n α} {f : α → m β} {g : α → n β} :
    rel x y → (∀ a, rel (f a) (g a)) → rel (x >>= f) (y >>= g)

namespace Simulation

variable {m n : Type → Type} [Observer m] [Observer n] (sim : Simulation m n)

/-- The meanings are related in every scope. -/
def Alike (a : Meaning m) (b : Meaning n) : Prop :=
  ∀ scope, sim.rel (a scope) (b scope)

theorem ofExcept {α : Type} (x : Except Error α) :
    sim.rel (Observer.ofExcept x : m α) (Observer.ofExcept x) := by
  cases x with
  | ok a => exact sim.pure a
  | error e => exact sim.fail e

variable {sim} {args : List (Meaning m)} {others : List (Meaning n)} {logic : Meaning m}
  {other : Meaning n}

theorem evaluateAll (scope : Scope) (hargs : List.Forall₂ sim.Alike args others) :
    sim.rel (Operator.evaluateAll scope args) (Operator.evaluateAll scope others) := by
  induction hargs with
  | nil => exact sim.pure []
  | cons harg _ ih => exact sim.bind (harg scope) fun _ => sim.bind ih fun _ => sim.pure _

theorem firstResult (scope : Scope) : ∀ {args : List (Meaning m)} {others : List (Meaning n)},
    List.Forall₂ sim.Alike args others →
    sim.rel (Operator.firstResult scope args) (Operator.firstResult scope others)
  | _, _, .nil => sim.pure Json.null
  | _, _, .cons hotherwise .nil => hotherwise scope
  | _, _, .cons htest (.cons hresult hrest) => by
      refine sim.bind (htest scope) fun value => ?_
      split
      · exact hresult scope
      · exact firstResult scope hrest

theorem firstDeciding (decides : Bool) (scope : Scope) :
    ∀ {args : List (Meaning m)} {others : List (Meaning n)}, List.Forall₂ sim.Alike args others →
    sim.rel (Operator.firstDeciding decides scope args)
      (Operator.firstDeciding decides scope others)
  | _, _, .nil => sim.pure Json.null
  | _, _, .cons harg .nil => harg scope
  | _, _, .cons harg (.cons hnext hrest) => by
      refine sim.bind (harg scope) fun value => ?_
      split
      · exact sim.pure value
      · exact firstDeciding decides scope (.cons hnext hrest)

theorem mapElements (hlogic : sim.Alike logic other) (items : List Json) :
    sim.rel (Operator.mapElements logic items) (Operator.mapElements other items) := by
  induction items with
  | nil => exact sim.pure []
  | cons item rest ih => exact sim.bind (hlogic _) fun _ => sim.bind ih fun _ => sim.pure _

theorem filterElements (hlogic : sim.Alike logic other) (items : List Json) :
    sim.rel (Operator.filterElements logic items) (Operator.filterElements other items) := by
  induction items with
  | nil => exact sim.pure []
  | cons item rest ih => exact sim.bind (hlogic _) fun _ => sim.bind ih fun _ => sim.pure _

theorem anyElement (hlogic : sim.Alike logic other) (wanted : Bool) (items : List Json) :
    sim.rel (Operator.anyElement logic wanted items) (Operator.anyElement other wanted items) := by
  induction items with
  | nil => exact sim.pure false
  | cons item rest ih =>
      refine sim.bind (hlogic _) fun value => ?_
      split
      · exact sim.pure true
      · exact ih

theorem foldElements (hlogic : sim.Alike logic other) (items : List Json) :
    ∀ accumulator, sim.rel (Operator.foldElements logic accumulator items)
      (Operator.foldElements other accumulator items) := by
  induction items with
  | nil => exact fun accumulator => sim.pure accumulator
  | cons item rest ih => exact fun accumulator => sim.bind (hlogic _) fun _ => ih _

/-- The values of all arguments, handed to a function that is not observed. -/
theorem applied (scope : Scope) (hargs : List.Forall₂ sim.Alike args others)
    (f : List Json → Except Error Json) :
    sim.rel (Operator.evaluateAll scope args >>= fun values => Observer.ofExcept (f values))
      (Operator.evaluateAll scope others >>= fun values => Observer.ofExcept (f values)) :=
  sim.bind (evaluateAll scope hargs) fun values => sim.ofExcept (f values)

/-- An operator keeps the relation between its arguments. -/
theorem run (op : Operator) (hargs : List.Forall₂ sim.Alike args others) :
    sim.Alike (op.run args) (op.run others) := by
  intro scope
  unfold Operator.run
  split
  · exact applied scope hargs op.arithmetic
  · rw [hargs.length_eq]
    refine sim.bind (sim.ofExcept _) fun _ => ?_
    cases op with
    | ifThen | ternary => exact firstResult scope hargs
    | and => exact firstDeciding false scope hargs
    | or => exact firstDeciding true scope hargs
    | map =>
        match hargs with
        | .cons hsource (.cons hlogic .nil) =>
            refine sim.bind (hsource scope) fun items => ?_
            exact sim.bind (mapElements hlogic _) fun _ => sim.pure _
        | .nil => exact applied scope .nil _
        | .cons hfirst .nil => exact applied scope (.cons hfirst .nil) _
        | .cons hfirst (.cons hnext (.cons hmore hrest)) =>
            exact applied scope (.cons hfirst (.cons hnext (.cons hmore hrest))) _
    | filter =>
        match hargs with
        | .cons hsource (.cons hlogic .nil) =>
            refine sim.bind (hsource scope) fun items => ?_
            exact sim.bind (filterElements hlogic _) fun _ => sim.pure _
        | .nil => exact applied scope .nil _
        | .cons hfirst .nil => exact applied scope (.cons hfirst .nil) _
        | .cons hfirst (.cons hnext (.cons hmore hrest)) =>
            exact applied scope (.cons hfirst (.cons hnext (.cons hmore hrest))) _
    | all =>
        match hargs with
        | .cons hsource (.cons hlogic .nil) =>
            refine sim.bind (hsource scope) fun items => ?_
            dsimp only
            split
            · exact sim.pure _
            · exact sim.bind (anyElement hlogic _ _) fun _ => sim.pure _
        | .nil => exact applied scope .nil _
        | .cons hfirst .nil => exact applied scope (.cons hfirst .nil) _
        | .cons hfirst (.cons hnext (.cons hmore hrest)) =>
            exact applied scope (.cons hfirst (.cons hnext (.cons hmore hrest))) _
    | none | some =>
        match hargs with
        | .cons hsource (.cons hlogic .nil) =>
            refine sim.bind (hsource scope) fun items => ?_
            exact sim.bind (anyElement hlogic _ _) fun _ => sim.pure _
        | .nil => exact applied scope .nil _
        | .cons hfirst .nil => exact applied scope (.cons hfirst .nil) _
        | .cons hfirst (.cons hnext (.cons hmore hrest)) =>
            exact applied scope (.cons hfirst (.cons hnext (.cons hmore hrest))) _
    | reduce =>
        match hargs with
        | .cons hsource (.cons hlogic .nil) =>
            refine sim.bind (hsource scope) fun source => sim.bind (sim.pure _) fun start => ?_
            cases source with
            | array items => exact foldElements hlogic items start
            | _ => exact sim.pure start
        | .cons hsource (.cons hlogic (.cons hinitial _)) =>
            refine sim.bind (hsource scope) fun source => sim.bind (hinitial scope) fun start => ?_
            cases source with
            | array items => exact foldElements hlogic items start
            | _ => exact sim.pure start
        | .nil => exact applied scope .nil _
        | .cons hfirst .nil => exact applied scope (.cons hfirst .nil) _
    | _ => exact applied scope hargs _

theorem operationMeaning (registry : Registry) (operator : Bytes)
    (hargs : List.Forall₂ sim.Alike args others) :
    sim.Alike (Expr.operationMeaning registry operator args)
      (Expr.operationMeaning registry operator others) := by
  unfold Expr.operationMeaning
  cases Operator.ofName? operator with
  | some op => exact run op hargs
  | none =>
      cases registry.find? operator with
      | some custom =>
          intro scope
          exact applied scope hargs fun values => custom.result values scope.data
      | none => exact fun _ => sim.fail _

theorem varMeaning (path : Bytes) {default : Option (Meaning m)} {otherwise : Option (Meaning n)}
    (hdefault : Option.Rel sim.Alike default otherwise) :
    sim.Alike (Expr.varMeaning path default) (Expr.varMeaning path otherwise) := by
  intro scope
  unfold Expr.varMeaning
  split
  · exact sim.pure _
  · cases scope.data.resolvePath? path with
    | some value => cases hdefault <;> exact sim.pure value
    | none =>
        cases hdefault with
        | none => exact sim.pure _
        | some hdefault => exact hdefault scope

variable (sim) in
/-- What the observers do for a node is related if what they do inside it is. -/
def KeptByNodes : Prop :=
  ∀ (view : NodeView) {x : m Json} {y : n Json}, sim.rel x y →
    sim.rel (Observer.node view x) (Observer.node view y)

mutual

/-- A relation that nodes keep holds of what the observers do for any expression. -/
theorem meaning (hnode : sim.KeptByNodes) (registry : Registry) :
    ∀ expr : Expr, sim.Alike (expr.meaning registry) (expr.meaning registry)
  | .literal value, _ => hnode _ (sim.pure value)
  | .array items, scope =>
      hnode _ (sim.bind (evaluateAll scope (meanings hnode registry items)) fun _ => sim.pure _)
  | .var path none, scope => hnode _ (varMeaning path .none scope)
  | .var path (some default), scope =>
      hnode _ (varMeaning path (.some (meaning hnode registry default)) scope)
  | .operation operator args, scope =>
      hnode _ (operationMeaning registry operator (meanings hnode registry args) scope)

theorem meanings (hnode : sim.KeptByNodes) (registry : Registry) : ∀ items : List Expr,
    List.Forall₂ sim.Alike (Expr.meanings registry items) (Expr.meanings registry items)
  | [] => .nil
  | item :: rest => .cons (meaning hnode registry item) (meanings hnode registry rest)

end

end Simulation

end CampaignRules
