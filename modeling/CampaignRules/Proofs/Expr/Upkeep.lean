import CampaignRules.Expr.Eval

/-! # What an evaluation keeps up

A property of computations may speak of the failures, of what is recorded and of the values that a
computation comes to. If it goes along with what computations are made of, then it holds of each way in
which an operator evaluates its arguments as soon as it holds of the arguments, hence of the operators and
of references. The proofs follow the evaluation once, for all properties. -/

namespace CampaignRules

/-- A property of the computations of an observer, with a bound on the values that they come to. -/
structure Upkeep (m : Type → Type) [Observer m] where
  holds {α : Type} (good : α → Prop) : m α → Prop
  pure {α : Type} {good : α → Prop} {a : α} : good a → holds good (Pure.pure a)
  bind {α β : Type} {good : α → Prop} {fine : β → Prop} {x : m α} {f : α → m β} :
    holds good x → (∀ a, good a → holds fine (f a)) → holds fine (x >>= f)
  mono {α : Type} {good wide : α → Prop} {x : m α} : holds good x → (∀ a, good a → wide a) → holds wide x
  /-- the values that expressions come to -/
  sound : Json → Prop
  null : sound .null
  bool (b : Bool) : sound (.bool b)
  array {items : List Json} : sound (.array items) ↔ ∀ v ∈ items, sound v
  frame {current accumulator : Json} :
    sound current → sound accumulator → sound (Operator.frame current accumulator).data
  follow? {data value : Json} {segments : List Bytes} :
    sound data → data.follow? segments = some value → sound value
  /-- the operators that may come to other values -/
  isExempt : Operator → Prop
  checkArity (op : Operator) (count : Nat) :
    holds (fun _ => True) (Observer.ofExcept (op.checkArity count))
  arithmetic (op : Operator) (values : List Json) : holds sound (Observer.ofExcept (op.arithmetic values))
  onValues (op : Operator) (data : Json) {values : List Json} : (∀ v ∈ values, sound v) →
    holds (fun v => ¬isExempt op → sound v) (Observer.ofExcept (op.onValues data values))

namespace Upkeep

variable {m : Type → Type} [Observer m] (keep : Upkeep m)

/-- On sound data the meaning keeps the property up, and comes to a sound value. -/
def Keeps (arg : Meaning m) : Prop :=
  ∀ scope : Scope, keep.sound scope.data → keep.holds keep.sound (arg scope)

variable {keep} {args : List (Meaning m)} {logic : Meaning m} {scope : Scope} {items : List Json}

theorem evaluateAll (hargs : ∀ arg ∈ args, keep.Keeps arg) (hdata : keep.sound scope.data) :
    keep.holds (fun values => ∀ v ∈ values, keep.sound v) (Operator.evaluateAll scope args) := by
  induction args with
  | nil => exact keep.pure (List.forall_mem_nil _)
  | cons arg rest ih =>
      rw [List.forall_mem_cons] at hargs
      exact keep.bind (hargs.1 scope hdata) fun _ hv => keep.bind (ih hargs.2) fun _ hvalues =>
        keep.pure (List.forall_mem_cons.2 ⟨hv, hvalues⟩)

theorem firstResult (hdata : keep.sound scope.data) : ∀ {args : List (Meaning m)},
    (∀ arg ∈ args, keep.Keeps arg) → keep.holds keep.sound (Operator.firstResult scope args)
  | [], _ => keep.pure keep.null
  | [otherwise], hargs => hargs otherwise List.mem_cons_self scope hdata
  | test :: result :: rest, hargs => by
      simp only [List.forall_mem_cons] at hargs
      obtain ⟨htest, hresult, hrest⟩ := hargs
      refine keep.bind (htest scope hdata) fun value _ => ?_
      split
      · exact hresult scope hdata
      · exact firstResult hdata hrest

theorem firstDeciding (decides : Bool) (hdata : keep.sound scope.data) :
    ∀ {args : List (Meaning m)}, (∀ arg ∈ args, keep.Keeps arg) →
      keep.holds keep.sound (Operator.firstDeciding decides scope args)
  | [], _ => keep.pure keep.null
  | [arg], hargs => hargs arg List.mem_cons_self scope hdata
  | arg :: next :: rest, hargs => by
      obtain ⟨harg, hrest⟩ := List.forall_mem_cons.1 hargs
      refine keep.bind (harg scope hdata) fun value hvalue => ?_
      split
      · exact keep.pure hvalue
      · exact firstDeciding decides hdata hrest

theorem mapElements (hlogic : keep.Keeps logic) (hitems : ∀ v ∈ items, keep.sound v) :
    keep.holds (fun values => ∀ v ∈ values, keep.sound v) (Operator.mapElements logic items) := by
  induction items with
  | nil => exact keep.pure (List.forall_mem_nil _)
  | cons item rest ih =>
      rw [List.forall_mem_cons] at hitems
      exact keep.bind (hlogic ⟨item, true⟩ hitems.1) fun _ hv => keep.bind (ih hitems.2) fun _ hvalues =>
        keep.pure (List.forall_mem_cons.2 ⟨hv, hvalues⟩)

theorem filterElements (hlogic : keep.Keeps logic) (hitems : ∀ v ∈ items, keep.sound v) :
    keep.holds (fun values => ∀ v ∈ values, keep.sound v) (Operator.filterElements logic items) := by
  induction items with
  | nil => exact keep.pure (List.forall_mem_nil _)
  | cons item rest ih =>
      rw [List.forall_mem_cons] at hitems
      refine keep.bind (hlogic ⟨item, true⟩ hitems.1) fun value _ =>
        keep.bind (ih hitems.2) fun kept hkept => keep.pure ?_
      split
      · exact List.forall_mem_cons.2 ⟨hitems.1, hkept⟩
      · exact hkept

theorem anyElement (hlogic : keep.Keeps logic) (wanted : Bool) (hitems : ∀ v ∈ items, keep.sound v) :
    keep.holds (fun _ => True) (Operator.anyElement logic wanted items) := by
  induction items with
  | nil => exact keep.pure trivial
  | cons item rest ih =>
      rw [List.forall_mem_cons] at hitems
      refine keep.bind (hlogic ⟨item, true⟩ hitems.1) fun value _ => ?_
      split
      · exact keep.pure trivial
      · exact ih hitems.2

theorem foldElements (hlogic : keep.Keeps logic) (hitems : ∀ v ∈ items, keep.sound v) :
    ∀ {accumulator : Json}, keep.sound accumulator →
      keep.holds keep.sound (Operator.foldElements logic accumulator items) := by
  induction items with
  | nil => exact fun haccumulator => keep.pure haccumulator
  | cons item rest ih =>
      rw [List.forall_mem_cons] at hitems
      exact fun haccumulator => keep.bind (hlogic _ (keep.frame hitems.1 haccumulator)) fun _ hv =>
        ih hitems.2 hv

theorem sound_elements {v : Json} (hv : keep.sound v) : ∀ item ∈ Operator.elements v, keep.sound item := by
  cases v with
  | array items => exact keep.array.1 hv
  | _ => exact List.forall_mem_nil _

/-- An operator keeps up what its arguments do. -/
theorem run (op : Operator) (hargs : ∀ arg ∈ args, keep.Keeps arg) (hdata : keep.sound scope.data) :
    keep.holds (fun v => ¬keep.isExempt op → keep.sound v) (op.run args scope) := by
  have hsound : ∀ {x : m Json} {op : Operator}, keep.holds keep.sound x →
      keep.holds (fun v => ¬keep.isExempt op → keep.sound v) x :=
    fun hx => keep.mono hx fun _ hv _ => hv
  unfold Operator.run
  split
  · exact keep.bind (evaluateAll hargs hdata) fun values _ => hsound (keep.arithmetic op values)
  · refine keep.bind (keep.checkArity op args.length) fun _ _ => ?_
    split
    · exact hsound (firstResult hdata hargs)
    · exact hsound (firstResult hdata hargs)
    · exact hsound (firstDeciding false hdata hargs)
    · exact hsound (firstDeciding true hdata hargs)
    · simp only [List.forall_mem_cons] at hargs
      exact keep.bind (hargs.1 scope hdata) fun _ hsource =>
        keep.bind (mapElements hargs.2.1 (sound_elements hsource)) fun _ hvalues =>
          keep.pure fun _ => keep.array.2 hvalues
    · simp only [List.forall_mem_cons] at hargs
      exact keep.bind (hargs.1 scope hdata) fun _ hsource =>
        keep.bind (filterElements hargs.2.1 (sound_elements hsource)) fun _ hvalues =>
          keep.pure fun _ => keep.array.2 hvalues
    · simp only [List.forall_mem_cons] at hargs
      refine keep.bind (hargs.1 scope hdata) fun _ hsource => ?_
      dsimp only
      split
      · exact keep.pure fun _ => keep.bool false
      · exact keep.bind (anyElement hargs.2.1 _ (sound_elements hsource)) fun _ _ =>
          keep.pure fun _ => keep.bool _
    · simp only [List.forall_mem_cons] at hargs
      exact keep.bind (hargs.1 scope hdata) fun _ hsource =>
        keep.bind (anyElement hargs.2.1 _ (sound_elements hsource)) fun _ _ =>
          keep.pure fun _ => keep.bool _
    · simp only [List.forall_mem_cons] at hargs
      exact keep.bind (hargs.1 scope hdata) fun _ hsource =>
        keep.bind (anyElement hargs.2.1 _ (sound_elements hsource)) fun _ _ =>
          keep.pure fun _ => keep.bool _
    · rename_i logic initial _
      simp only [List.forall_mem_cons] at hargs
      obtain ⟨hsource, hlogic, hinitial⟩ := hargs
      refine keep.bind (hsource scope hdata) fun source hitems => ?_
      have hstart : keep.holds keep.sound (initial.head?.elim (Pure.pure Json.null) fun arg => arg scope) := by
        cases initial with
        | nil => exact keep.pure keep.null
        | cons arg rest => exact hinitial arg List.mem_cons_self scope hdata
      cases initial with
      | nil | cons arg rest =>
          refine keep.bind hstart fun start hstart => ?_
          cases source with
          | array items => exact hsound (foldElements hlogic (keep.array.1 hitems) hstart)
          | _ => exact keep.pure fun _ => hstart
    · exact keep.bind (evaluateAll hargs hdata) fun _ hvalues => keep.onValues _ _ hvalues

/-- A reference leads to sound values only, or to its default. -/
theorem varMeaning (path : Bytes) {default : Option (Meaning m)}
    (hdefault : ∀ arg ∈ default, keep.Keeps arg) : keep.Keeps (Expr.varMeaning path default) := by
  intro scope hdata
  unfold Expr.varMeaning
  split
  · refine keep.pure ?_
    split
    · exact hdata
    · exact keep.null
  · split
    · rename_i value hvalue
      exact keep.pure (keep.follow? hdata hvalue)
    · exact hdefault _ rfl scope hdata
    · exact keep.pure keep.null

end Upkeep

end CampaignRules
