import CampaignRules.Proofs.Expr.Operands
import CampaignRules.Proofs.Json.StrictEquality

/-! # Strict equality in expressions

Whether two values are strictly equal is asked by `===` and `!==`, and by `in` of each item of an array.
All three answer for values in equal structures as they do for the values alone, but for words that
strict equality confuses. -/

namespace CampaignRules

open Json (Layer Confused wrap strictlyEqual)

namespace Operator

/-- The operators that ask for strict equality of two values. -/
def strictComparisons : List Operator :=
  [.strictEqual, .strictUnequal]

variable {op : Operator} {a b needle : Json} {layers others : List Layer} {items wrapped : List Json}

theorem onValues_wrap (hop : op ∈ strictComparisons) (hlayers : List.Forall₂ Layer.Equal layers others)
    (hclear : ¬Confused a b) (data : Json) :
    op.onValues data [wrap layers a, wrap others b] = op.onValues data [a, b] := by
  have hsame := Json.strictlyEqual_wrap hlayers hclear
  rcases List.mem_pair.1 hop with rfl | rfl
  · exact congrArg (fun equal => Except.ok (Json.bool equal)) hsame
  · exact congrArg (fun equal => Except.ok (Json.bool !equal)) hsame

/-- Each item stands in a structure that is equal to the given one. -/
def WrapsItems (layers : List Layer) (items wrapped : List Json) : Prop :=
  List.Forall₂ (fun item v => ∃ others, List.Forall₂ Layer.Equal others layers ∧ v = wrap others item)
    items wrapped

theorem isElement_wrap (hitems : WrapsItems layers items wrapped)
    (hclear : ∀ item ∈ items, ¬Confused item needle) :
    isElement (wrap layers needle) (.array wrapped) = isElement needle (.array items) := by
  have hany : (wrapped.any fun v => strictlyEqual v (wrap layers needle)) =
      items.any fun item => strictlyEqual item needle := by
    induction hitems with
    | nil => rfl
    | cons hitem _ ih =>
        obtain ⟨others, hlayers, rfl⟩ := hitem
        rw [List.forall_mem_cons] at hclear
        rw [List.any_cons, List.any_cons, Json.strictlyEqual_wrap hlayers hclear.1, ih hclear.2]
  exact congrArg Except.ok hany

theorem element_wrap (hitems : WrapsItems layers items wrapped)
    (hclear : ∀ item ∈ items, ¬Confused item needle) (data : Json) :
    element.onValues data [wrap layers needle, .array wrapped] =
      element.onValues data [needle, .array items] :=
  congrArg (Except.map Json.bool) (isElement_wrap hitems hclear)

end Operator

namespace Expr

open Operator

/-- Operations of which an operator makes the same have the same meaning. -/
theorem meaning_eq_of_onValues {registry : Registry} {scope : Scope} {op : Operator}
    {args others : List Expr} {values otherValues : List Json} (hop : op.isEager)
    (hcount : op.arity.admits args.length) (hothers : op.arity.admits others.length)
    (hvalues : List.Forall₂ (fun arg value => arg.meaning registry scope = (.ok value : Except Error Json))
      args values)
    (hotherValues : List.Forall₂
      (fun arg value => arg.meaning registry scope = (.ok value : Except Error Json)) others otherValues)
    (hsame : op.onValues scope.data otherValues = op.onValues scope.data values) :
    (operation op.name others).meaning registry scope =
      ((operation op.name args).meaning registry scope : Except Error Json) := by
  rw [meaning_of_isEager hop hcount hvalues, meaning_of_isEager hop hothers hotherValues, hsame]

/-- Two arrays are strictly equal if and only if they have as many items and these are strictly equal
one by one, and two objects if and only if they have the same keys and strictly equal members. So what
`===`, `!==` and `in` answer for values they answer for these values in equal structures. All of this
holds but for pairs of words that are confused, of which one is beyond `2 ^ 53`; for those the answer
is always the other one when they are wrapped. -/
theorem strictEquality_structural {registry : Registry} {scope : Scope} {x y : Expr} {a b : Json}
    (hx : x.meaning registry scope = (.ok a : Except Error Json))
    (hy : y.meaning registry scope = (.ok b : Except Error Json)) :
    (∀ as bs, (∀ pair ∈ as.zip bs, ¬Confused pair.1 pair.2) →
      (strictlyEqual (.array as) (.array bs) ↔ List.Forall₂ (fun v w => strictlyEqual v w) as bs)) ∧
    (∀ as bs : Json.Members, as.Sorted →
      (∀ key v w, Json.Members.get? key as = some v → Json.Members.get? key bs = some w →
        ¬Confused v w) →
      (strictlyEqual (.object as) (.object bs) ↔ as.keys = bs.keys ∧
        ∀ key v w, Json.Members.get? key as = some v → Json.Members.get? key bs = some w →
          strictlyEqual v w)) ∧
    (∀ layers others, List.Forall₂ Layer.Equal layers others → layers ≠ [] →
      (strictlyEqual (wrap layers a) (wrap others b) = strictlyEqual a b ↔ ¬Confused a b)) ∧
    (∀ x' y' layers others, List.Forall₂ Layer.Equal layers others → ¬Confused a b →
      x'.meaning registry scope = (.ok (wrap layers a) : Except Error Json) →
      y'.meaning registry scope = (.ok (wrap others b) : Except Error Json) →
      ∀ op ∈ strictComparisons, (operation op.name [x', y']).meaning registry scope =
        ((operation op.name [x, y]).meaning registry scope : Except Error Json)) ∧
    (∀ x' y' items wrapped layers, b = .array items → WrapsItems layers items wrapped →
      (∀ item ∈ items, ¬Confused item a) →
      x'.meaning registry scope = (.ok (wrap layers a) : Except Error Json) →
      y'.meaning registry scope = (.ok (.array wrapped) : Except Error Json) →
      (operation "in" [x', y']).meaning registry scope =
        ((operation "in" [x, y]).meaning registry scope : Except Error Json)) ∧
    (Confused a b → ∃ m n, a.whole? = some m ∧ b.whole? = some n ∧
      (2 ^ 53 < m.natAbs ∨ 2 ^ 53 < n.natAbs)) := by
  refine ⟨fun as bs => Json.strictlyEqual_array_iff, fun as bs => Json.strictlyEqual_object_iff,
    fun layers others => Json.strictlyEqual_wrap_iff, ?_, ?_, Json.large_of_confused⟩
  · intro x' y' layers others hlayers hclear hx' hy' op hop
    have heager : op.isEager := by
      rcases List.mem_pair.1 hop with rfl | rfl <;> rfl
    have hcount : op.arity.admits 2 := by
      rcases List.mem_pair.1 hop with rfl | rfl <;> rfl
    exact meaning_eq_of_onValues heager hcount hcount (.cons hx (.cons hy .nil))
      (.cons hx' (.cons hy' .nil)) (onValues_wrap hop hlayers hclear scope.data)
  · rintro x' y' items wrapped layers rfl hitems hclear hx' hy'
    have heager : Operator.element.isEager := rfl
    exact meaning_eq_of_onValues heager rfl rfl (.cons hx (.cons hy .nil))
      (.cons hx' (.cons hy' .nil)) (element_wrap hitems hclear scope.data)

/-- A number is the same in a record, whether it is written as a word or as a float. -/
theorem strictEquality_structural_record :
    let held (v : Json) : Expr := .literal (.object [("costs", .array [v, .string "gold"])])
    (Expr.operation "===" [held (.unsigned 3), held (.float 3.0)]).meaning .empty ⟨.null, false⟩ =
        (.ok (.bool true) : Except Error Json) ∧
      strictlyEqual (.array [.unsigned 3, .null]) (.array [.float 3.0, .null]) := by
  intro held
  have hliteral : ∀ v, (Expr.literal v).meaning .empty ⟨.null, false⟩ = (.ok v : Except Error Json) :=
    fun _ => rfl
  have hfloat : ∀ v, ¬Confused v (.float 3.0) := fun v ⟨m, n, _, hn, _⟩ => by cases hn
  have hnull : ¬Confused .null .null := fun ⟨m, n, hm, _, _⟩ => by cases hm
  have hlayers : List.Forall₂ Layer.Equal
      [.member [] "costs" [], .item [] [.string "gold"]]
      [.member [] "costs" [], .item [] [.string "gold"]] :=
    .cons ⟨rfl, rfl, rfl⟩ (.cons ⟨rfl, rfl⟩ .nil)
  obtain ⟨harrays, -, -, hwraps, -, -⟩ :=
    strictEquality_structural (hliteral (.unsigned 3)) (hliteral (.float 3.0))
  constructor
  · exact hwraps _ _ _ _ hlayers (hfloat _) (hliteral _) (hliteral _) .strictEqual (by decide)
  · refine (harrays _ _ ?_).2 (.cons rfl (.cons rfl .nil))
    rintro pair hpair
    rcases List.mem_pair.1 hpair with rfl | rfl
    · exact hfloat _
    · exact hnull

/-- The largest word is not the word with the same bits and a sign, but a list of it is a list of that.
And of two words next to each other that are the same float no list is the same. -/
theorem words_confused :
    let largest : Json := .unsigned 18446744073709551615
    let negative : Json := .signed (-1)
    let odd : Json := .unsigned 9007199254740993
    let even : Json := .unsigned 9007199254740992
    strictlyEqual largest negative = false ∧ strictlyEqual (.array [largest]) (.array [negative]) = true ∧
      strictlyEqual odd even = true ∧ strictlyEqual (.array [odd]) (.array [even]) = false :=
  ⟨rfl, rfl, rfl, rfl⟩

end Expr

end CampaignRules
