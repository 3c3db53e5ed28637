import CampaignRules.Expr.Eval
import Mathlib.Data.List.Forall2

/-! # Iterations agree

The operators that go over the elements of an array evaluate one and the same logic, on one element
after the other. So what they come to follows from what the logic comes to on the elements: the values
themselves, the elements whose values are true, or whether there are such. Up to the first element on
which the logic fails an iteration does what it does on an array that ends before it; then it fails in
the same way, unless it has stopped earlier because an element has decided its answer. -/

namespace CampaignRules

namespace Operator

variable {source logic : Meaning (Except Error)} {scope : Scope} {item value : Json}
  {items values rest : List Json} {e : Error}

/-- On each of the elements the logic comes to the value at its place. -/
def Gives (logic : Meaning (Except Error)) (items values : List Json) : Prop :=
  List.Forall₂ (fun item value => logic ⟨item, true⟩ = .ok value) items values

/-- The elements whose values are true, in the order of the elements. -/
def chosen (items values : List Json) : List Json :=
  ((items.zip values).filter fun pair => pair.2.truthy).map Prod.fst

theorem chosen_cons (item value : Json) (items values : List Json) :
    chosen (item :: items) (value :: values) =
      if value.truthy then item :: chosen items values else chosen items values := by
  cases hvalue : value.truthy <;> simp [chosen, hvalue]

theorem mapElements_of_ok (hvalue : logic ⟨item, true⟩ = .ok value) (rest : List Json) :
    mapElements logic (item :: rest) = (mapElements logic rest).map (value :: ·) := by
  rw [mapElements, hvalue]
  cases mapElements logic rest <;> rfl

theorem filterElements_of_ok (hvalue : logic ⟨item, true⟩ = .ok value) (rest : List Json) :
    filterElements logic (item :: rest) =
      (filterElements logic rest).map fun kept => if value.truthy then item :: kept else kept := by
  rw [filterElements, hvalue]
  cases filterElements logic rest <;> rfl

theorem anyElement_of_ok (hvalue : logic ⟨item, true⟩ = .ok value) (wanted : Bool) (rest : List Json) :
    anyElement logic wanted (item :: rest) =
      if value.truthy = wanted then .ok true else anyElement logic wanted rest := by
  rw [anyElement, hvalue]
  rfl

theorem mapElements_of_error (hfail : logic ⟨item, true⟩ = .error e) (rest : List Json) :
    mapElements logic (item :: rest) = .error e := by
  rw [mapElements, hfail]
  rfl

theorem filterElements_of_error (hfail : logic ⟨item, true⟩ = .error e) (rest : List Json) :
    filterElements logic (item :: rest) = .error e := by
  rw [filterElements, hfail]
  rfl

theorem anyElement_of_error (hfail : logic ⟨item, true⟩ = .error e) (wanted : Bool)
    (rest : List Json) : anyElement logic wanted (item :: rest) = .error e := by
  rw [anyElement, hfail]
  rfl

theorem mapElements_append (hvalues : Gives logic items values) (rest : List Json) :
    mapElements logic (items ++ rest) = (mapElements logic rest).map (values ++ ·) := by
  induction hvalues with
  | nil => cases h : mapElements logic rest <;> exact h
  | cons hvalue _ ih =>
      rw [List.cons_append, mapElements_of_ok hvalue, ih]
      cases mapElements logic rest <;> rfl

theorem filterElements_append (hvalues : Gives logic items values) (rest : List Json) :
    filterElements logic (items ++ rest) =
      (filterElements logic rest).map (chosen items values ++ ·) := by
  induction hvalues with
  | nil => cases h : filterElements logic rest <;> exact h
  | @cons item value _ _ hvalue _ ih =>
      rw [List.cons_append, filterElements_of_ok hvalue, ih, chosen_cons]
      cases filterElements logic rest <;> cases value.truthy <;> rfl

theorem anyElement_append (hvalues : Gives logic items values) (wanted : Bool) (rest : List Json) :
    anyElement logic wanted (items ++ rest) =
      if values.any (·.truthy = wanted) then .ok true else anyElement logic wanted rest := by
  induction hvalues with
  | nil => rfl
  | @cons item value _ _ hvalue _ ih =>
      rw [List.cons_append, anyElement_of_ok hvalue, ih, List.any_cons]
      by_cases hfound : value.truthy = wanted <;> simp [hfound]

theorem mapElements_of_gives (hvalues : Gives logic items values) :
    mapElements logic items = .ok values := by
  have happend := mapElements_append hvalues []
  rw [List.append_nil] at happend
  rw [happend]
  exact congrArg Except.ok (List.append_nil values)

theorem filterElements_of_gives (hvalues : Gives logic items values) :
    filterElements logic items = .ok (chosen items values) := by
  have happend := filterElements_append hvalues []
  rw [List.append_nil] at happend
  rw [happend]
  exact congrArg Except.ok (List.append_nil _)

theorem anyElement_of_gives (hvalues : Gives logic items values) (wanted : Bool) :
    anyElement logic wanted items = .ok (values.any (·.truthy = wanted)) := by
  have happend := anyElement_append hvalues wanted []
  rw [List.append_nil] at happend
  rw [happend]
  cases values.any (·.truthy = wanted) <;> rfl

theorem mapElements_of_failure (hvalues : Gives logic items values)
    (hfail : logic ⟨item, true⟩ = .error e) : mapElements logic (items ++ item :: rest) = .error e := by
  rw [mapElements_append hvalues, mapElements_of_error hfail]
  rfl

theorem filterElements_of_failure (hvalues : Gives logic items values)
    (hfail : logic ⟨item, true⟩ = .error e) :
    filterElements logic (items ++ item :: rest) = .error e := by
  rw [filterElements_append hvalues, filterElements_of_error hfail]
  rfl

theorem anyElement_of_failure (hvalues : Gives logic items values)
    (hfail : logic ⟨item, true⟩ = .error e) (wanted : Bool) :
    anyElement logic wanted (items ++ item :: rest) =
      if values.any (·.truthy = wanted) then .ok true else .error e := by
  rw [anyElement_append hvalues, anyElement_of_error hfail]

section

variable (hsource : source scope = .ok (.array items))
include hsource

theorem run_map : run .map [source, logic] scope = (mapElements logic items).map .array := by
  have hrun : run .map [source, logic] scope =
      source scope >>= fun v => (mapElements logic (elements v)).map .array := rfl
  rw [hrun, hsource]
  rfl

theorem run_filter : run .filter [source, logic] scope = (filterElements logic items).map .array := by
  have hrun : run .filter [source, logic] scope =
      source scope >>= fun v => (filterElements logic (elements v)).map .array := rfl
  rw [hrun, hsource]
  rfl

theorem run_some : run .some [source, logic] scope = (anyElement logic true items).map .bool := by
  have hrun : run .some [source, logic] scope =
      source scope >>= fun v => (anyElement logic true (elements v)).map .bool := rfl
  rw [hrun, hsource]
  rfl

theorem run_none :
    run .none [source, logic] scope = (anyElement logic true items).map fun found => .bool !found := by
  have hrun : run .none [source, logic] scope = source scope >>= fun v =>
      (anyElement logic true (elements v)).map fun found => .bool !found := rfl
  rw [hrun, hsource]
  rfl

theorem run_all : run .all [source, logic] scope =
    if items.isEmpty then .ok (.bool false)
    else (anyElement logic false items).map fun found => .bool !found := by
  have hrun : run .all [source, logic] scope = source scope >>= fun v =>
      if (elements v).isEmpty then .ok (.bool false)
      else (anyElement logic false (elements v)).map fun found => .bool !found := rfl
  rw [hrun, hsource]
  rfl

end

theorem any_true (values : List Json) : values.any (·.truthy = true) = values.any Json.truthy := by
  simp

theorem not_any_false (values : List Json) :
    (!values.any (·.truthy = false)) = values.all Json.truthy := by
  simp [List.not_any_eq_all_not]

end Operator

namespace Expr

open Operator

/-- The iterations over an array agree with each other. Where the logic has a value on every element,
`map` lists the values, `filter` the elements whose values are true, `some` and `none` tell whether
there are such, and `all` whether there are elements and none but such. Where it fails, `map` and
`filter` fail in the way in which it fails first, and the others either do so too or have been decided
by an element before. -/
theorem iterations_agree (registry : Registry) (source logic : Expr) (scope : Scope) {xs : List Json}
    (hsource : source.meaning registry scope = (.ok (.array xs) : Except Error Json)) :
    let value : Json → Except Error Json := fun x => logic.meaning registry ⟨x, true⟩
    let through : Bytes → Except Error Json := fun operator =>
      (operation operator [source, logic]).meaning registry scope
    (∀ vs, List.Forall₂ (fun x v => value x = .ok v) xs vs →
      through "map" = .ok (.array vs) ∧
      through "filter" = .ok (.array (chosen xs vs)) ∧
      through "some" = .ok (.bool (vs.any Json.truthy)) ∧
      through "none" = .ok (.bool !vs.any Json.truthy) ∧
      through "all" = .ok (.bool (!xs.isEmpty && vs.all Json.truthy))) ∧
    ∀ earlier x later vs e, xs = earlier ++ x :: later →
      List.Forall₂ (fun x v => value x = .ok v) earlier vs → value x = .error e →
      through "map" = .error e ∧
      through "filter" = .error e ∧
      through "some" = (if vs.any Json.truthy then .ok (.bool true) else .error e) ∧
      through "none" = (if vs.any Json.truthy then .ok (.bool false) else .error e) ∧
      through "all" = if vs.all Json.truthy then .error e else .ok (.bool false) := by
  intro value through
  have hthrough : ∀ op : Operator, through op.name =
      op.run [source.meaning registry, logic.meaning registry] scope := fun op =>
    meaning_operation registry op [source, logic] scope
  have hmap : through "map" = _ := (hthrough .map).trans (run_map hsource)
  have hfilter : through "filter" = _ := (hthrough .filter).trans (run_filter hsource)
  have hsome : through "some" = _ := (hthrough .some).trans (run_some hsource)
  have hnone : through "none" = _ := (hthrough .none).trans (run_none hsource)
  have hall : through "all" = _ := (hthrough .all).trans (run_all hsource)
  refine ⟨fun vs hvalues => ⟨?_, ?_, ?_, ?_, ?_⟩, ?_⟩
  · rw [hmap, mapElements_of_gives hvalues]
    rfl
  · rw [hfilter, filterElements_of_gives hvalues]
    rfl
  · rw [hsome, anyElement_of_gives hvalues, any_true]
    rfl
  · rw [hnone, anyElement_of_gives hvalues, any_true]
    rfl
  · rw [hall, anyElement_of_gives hvalues, ← not_any_false]
    cases xs <;> rfl
  · rintro earlier x later vs e rfl hvalues hfail
    refine ⟨?_, ?_, ?_, ?_, ?_⟩
    · rw [hmap, mapElements_of_failure hvalues hfail]
      rfl
    · rw [hfilter, filterElements_of_failure hvalues hfail]
      rfl
    · rw [hsome, anyElement_of_failure hvalues hfail, any_true]
      cases vs.any Json.truthy <;> rfl
    · rw [hnone, anyElement_of_failure hvalues hfail, any_true]
      cases vs.any Json.truthy <;> rfl
    · have hnonempty : (earlier ++ x :: later).isEmpty = false := by simp
      rw [hall, hnonempty, anyElement_of_failure hvalues hfail, ← not_any_false]
      cases vs.any (·.truthy = false) <;> rfl

/-- The letter a is in salt and not in iron, which are in the crates. It cannot be looked for in a
number, which is among the goods too. That makes two of the iterations over the goods fail; the others
have been decided before. -/
theorem iterations_agree_goods :
    let context : Json := .object [("goods", .array ["salt", "iron", .unsigned 7]),
      ("crates", .array ["salt", "iron"])]
    let logic : Expr := .operation "in" [.literal "a", .var [] none]
    let through : Bytes → Bytes → Except Error Json := fun operator goods =>
      (operation operator [.var goods none, logic]).meaning .empty ⟨context, false⟩
    let noText : Error := .typeMismatch (.notSearchable "number")
    (through "map" "crates" = .ok (.array [.bool true, .bool false]) ∧
      through "filter" "crates" = .ok (.array ["salt"]) ∧ through "all" "crates" = .ok (.bool false)) ∧
    through "map" "goods" = .error noText ∧ through "filter" "goods" = .error noText ∧
      through "some" "goods" = .ok (.bool true) ∧ through "none" "goods" = .ok (.bool false) ∧
      through "all" "goods" = .ok (.bool false) := by
  intro context logic through noText
  have hcrates : (Expr.var "crates" none).meaning .empty ⟨context, false⟩ =
      (.ok (.array ["salt", "iron"]) : Except Error Json) := rfl
  have hgoods : (Expr.var "goods" none).meaning .empty ⟨context, false⟩ =
      (.ok (.array ["salt", "iron", .unsigned 7]) : Except Error Json) := rfl
  obtain ⟨hvalues, -⟩ := iterations_agree .empty (.var "crates" none) logic ⟨context, false⟩ hcrates
  obtain ⟨-, hfails⟩ := iterations_agree .empty (.var "goods" none) logic ⟨context, false⟩ hgoods
  obtain ⟨hmap, hfilter, -, -, hall⟩ := hvalues [.bool true, .bool false] (.cons rfl (.cons rfl .nil))
  obtain ⟨hmap', hfilter', hothers⟩ := hfails ["salt", "iron"] (.unsigned 7) []
    [.bool true, .bool false] noText rfl (.cons rfl (.cons rfl .nil)) rfl
  exact ⟨⟨hmap, hfilter, hall⟩, hmap', hfilter', hothers⟩

end Expr

end CampaignRules
