import CampaignRules.Proofs.Expr.Operands

/-! # Comparisons of containers

A comparison that converts its operands refuses arrays and objects, whatever it would compare them
with. In a chain of two comparisons the second is made only if the first holds. So a container is
refused at every place but one: at the end of a chain whose first comparison does not hold, which is
decided before. -/

namespace CampaignRules

namespace Operator

/-- The operators that compare and convert what they compare. -/
def comparisons : List Operator :=
  [.looseEqual, .looseUnequal, .less, .lessOrEqual, .greater, .greaterOrEqual]

/-- What the operator finds on two neighbours among its operands. -/
def compare (op : Operator) (a b : Json) : Except Error Bool :=
  match op with
  | .looseEqual => Json.looselyEqual a b
  | .looseUnequal => (Json.looselyEqual a b).map (!·)
  | .less => Json.lessThan a b
  | .greater => Json.lessThan b a
  | .greaterOrEqual => Json.lessOrEqual b a
  | _ => Json.lessOrEqual a b

/-- What is wrong with two neighbours that the operator does not compare. -/
def mismatch (op : Operator) (a b : Json) : TypeMismatch :=
  match op with
  | .looseEqual | .looseUnequal => .incomparable a.typeName b.typeName
  | .greater | .greaterOrEqual => .unordered b.typeName a.typeName
  | _ => .unordered a.typeName b.typeName

/-- There is a second comparison, and it is not made because the first does not hold. -/
def IsDecidedEarly (op : Operator) (values : List Json) : Prop :=
  ∃ a b c, values = [a, b, c] ∧ op.compare a b = .ok false

theorem isEager_of_mem_comparisons : ∀ op ∈ comparisons, op.isEager := by
  decide

variable {op : Operator} {a b c v : Json} {values : List Json}

theorem mem_comparisons_iff : op ∈ comparisons ↔ op = .looseEqual ∨ op = .looseUnequal ∨ op = .less ∨
    op = .lessOrEqual ∨ op = .greater ∨ op = .greaterOrEqual := by
  simp [comparisons]

theorem compare_of_isContainer (hop : op ∈ comparisons) (hcontainer : a.isContainer ∨ b.isContainer) :
    op.compare a b = .error (.typeMismatch (op.mismatch a b)) := by
  have hpair : (a.isContainer || b.isContainer) = true := by simpa using hcontainer
  have hswapped : (b.isContainer || a.isContainer) = true := by rwa [Bool.or_comm]
  rcases mem_comparisons_iff.1 hop with rfl | rfl | rfl | rfl | rfl | rfl
  · exact if_pos hpair
  · exact congrArg (Except.map (!·)) (if_pos hpair)
  · exact if_pos hpair
  · exact if_pos hpair
  · exact if_pos hswapped
  · exact if_pos hswapped

theorem exists_toNumber (hscalar : v.isContainer = false) : ∃ number, v.toNumber = .ok number := by
  cases v with
  | array | object => cases hscalar
  | _ => exact ⟨_, rfl⟩

theorem exists_compareNumbers (ha : a.isContainer = false) (hb : b.isContainer = false)
    (rel : Float → Float → Bool) : ∃ holds, Json.compareNumbers rel a b = .ok holds := by
  obtain ⟨x, hx⟩ := exists_toNumber ha
  obtain ⟨y, hy⟩ := exists_toNumber hb
  rw [Json.compareNumbers, hx, hy]
  cases x <;> cases y <;> exact ⟨_, rfl⟩

theorem exists_compareScalars (ha : a.isContainer = false) (hb : b.isContainer = false)
    (texts : Bytes → Bytes → Bool) (numbers : Float → Float → Bool) :
    ∃ holds, Json.compareScalars texts numbers a b = .ok holds := by
  unfold Json.compareScalars
  rw [ha, hb, Bool.or_false, if_neg Bool.false_ne_true]
  split
  · exact ⟨_, rfl⟩
  · exact exists_compareNumbers ha hb numbers

/-- Two scalars are compared, whatever they are. -/
theorem exists_less (hop : op = .less ∨ op = .lessOrEqual) (ha : a.isContainer = false)
    (hb : b.isContainer = false) : ∃ holds, op.compare a b = .ok holds := by
  rcases hop with rfl | rfl
  · exact exists_compareScalars ha hb _ _
  · exact exists_compareScalars ha hb _ _

theorem two_or_three (hop : op ∈ comparisons) (hcount : op.arity.admits values.length) :
    (∃ a b, values = [a, b]) ∨ (op = .less ∨ op = .lessOrEqual) ∧ ∃ a b c, values = [a, b, c] := by
  have hbounds : 2 ≤ values.length ∧
      (values.length ≤ 2 ∨ (op = .less ∨ op = .lessOrEqual) ∧ values.length ≤ 3) := by
    simp only [Arity.admits, Bool.and_eq_true, decide_eq_true_eq] at hcount
    rcases mem_comparisons_iff.1 hop with rfl | rfl | rfl | rfl | rfl | rfl
    all_goals
      simp [arity] at hcount ⊢
      omega
  obtain ⟨hleast, hmost | ⟨hop, hmost⟩⟩ := hbounds
  · exact .inl (List.length_eq_two.1 (by omega))
  · rcases Nat.lt_or_ge values.length 3 with hless | hthree
    · exact .inl (List.length_eq_two.1 (by omega))
    · exact .inr ⟨hop, List.length_eq_three.1 (by omega)⟩

theorem chain_two (holds : Json → Json → Except Error Bool) (a b : Json) :
    chain holds [a, b] = holds a b := by
  rw [chain]
  cases hholds : holds a b with
  | error e => rfl
  | ok held => cases held <;> rfl

theorem onValues_two (hop : op ∈ comparisons) (data a b : Json) :
    op.onValues data [a, b] = (op.compare a b).map Json.bool := by
  rcases mem_comparisons_iff.1 hop with rfl | rfl | rfl | rfl | rfl | rfl
  · rfl
  · show (Json.looselyEqual a b).map _ = ((Json.looselyEqual a b).map _).map _
    cases Json.looselyEqual a b <;> rfl
  · exact congrArg (Except.map Json.bool) (chain_two Json.lessThan a b)
  · exact congrArg (Except.map Json.bool) (chain_two Json.lessOrEqual a b)
  · rfl
  · rfl

theorem onValues_three (hop : op = .less ∨ op = .lessOrEqual) (data a b c : Json) :
    op.onValues data [a, b, c] =
      (op.compare a b >>= fun held => if held then op.compare b c else .ok false).map Json.bool := by
  have hchain : ∀ holds : Json → Json → Except Error Bool, chain holds [a, b, c] =
      holds a b >>= fun held => if held then holds b c else .ok false := by
    intro holds
    rw [chain, chain_two]
    rfl
  rcases hop with rfl | rfl
  · exact congrArg (Except.map Json.bool) (hchain Json.lessThan)
  · exact congrArg (Except.map Json.bool) (hchain Json.lessOrEqual)

/-- Where a container is compared, it is refused with the value that it stands beside. -/
theorem onValues_of_container (hop : op ∈ comparisons) (hcount : op.arity.admits values.length)
    (hcontainer : ∃ v ∈ values, v.isContainer) (hmade : ¬op.IsDecidedEarly values) (data : Json) :
    ∃ a b, [a, b] <:+: values ∧ (a.isContainer ∨ b.isContainer) ∧
      op.onValues data values = .error (.typeMismatch (op.mismatch a b)) := by
  obtain ⟨v, hmem, hv⟩ := hcontainer
  rcases two_or_three hop hcount with ⟨a, b, rfl⟩ | ⟨hless, a, b, c, rfl⟩
  · have hpair : a.isContainer ∨ b.isContainer := by
      rcases List.mem_pair.1 hmem with rfl | rfl
      · exact .inl hv
      · exact .inr hv
    refine ⟨a, b, List.infix_rfl, hpair, ?_⟩
    rw [onValues_two hop, compare_of_isContainer hop hpair]
    rfl
  · by_cases hpair : a.isContainer ∨ b.isContainer
    · refine ⟨a, b, ⟨[], [c], rfl⟩, hpair, ?_⟩
      rw [onValues_three hless, compare_of_isContainer hop hpair]
      rfl
    · -- the first comparison is one of scalars, and it holds
      rw [not_or, Bool.not_eq_true, Bool.not_eq_true] at hpair
      obtain ⟨held, hheld⟩ := exists_less hless hpair.1 hpair.2
      have hlast : b.isContainer ∨ c.isContainer := by
        simp only [List.mem_cons, List.not_mem_nil, or_false] at hmem
        rcases hmem with rfl | rfl | rfl
        · exact absurd hv (by simp [hpair.1])
        · exact .inl hv
        · exact .inr hv
      cases held with
      | false => exact absurd ⟨a, b, c, rfl, hheld⟩ hmade
      | true =>
          refine ⟨b, c, ⟨[a], [], rfl⟩, hlast, ?_⟩
          rw [onValues_three hless, hheld]
          exact congrArg (Except.map Json.bool) (compare_of_isContainer hop hlast)

/-- A chain that is decided early is false. -/
theorem onValues_of_isDecidedEarly (hop : op ∈ comparisons) (hcount : op.arity.admits values.length)
    (hearly : op.IsDecidedEarly values) (data : Json) : op.onValues data values = .ok (.bool false) := by
  obtain ⟨a, b, c, rfl, hheld⟩ := hearly
  obtain ⟨_, _, htwo⟩ | ⟨hless, -⟩ := two_or_three hop hcount
  · cases htwo
  · rw [onValues_three hless, hheld]
    rfl

end Operator

namespace Expr

open Operator

/-- A comparison one of whose operands is an array or an object fails with a type mismatch, whatever the
other operands are, in the form with two operands and in the form with three. The mismatch is that of two
neighbours one of which is such a container. There is one exception: a chain of three that ends with
a container is false if its first comparison is made and does not hold. -/
theorem containers_refused {registry : Registry} {scope : Scope} {op : Operator} {args : List Expr}
    {values : List Json} (hop : op ∈ comparisons) (hcount : op.arity.admits args.length)
    (hvalues : List.Forall₂ (fun arg value => arg.meaning registry scope = (.ok value : Except Error Json))
      args values)
    (hcontainer : ∃ v ∈ values, v.isContainer) :
    let outcome : Except Error Json := (operation op.name args).meaning registry scope
    (¬op.IsDecidedEarly values → ∃ a b, [a, b] <:+: values ∧ (a.isContainer ∨ b.isContainer) ∧
      outcome = .error (.typeMismatch (op.mismatch a b))) ∧
    (op.IsDecidedEarly values → outcome = .ok (.bool false)) := by
  intro outcome
  have houtcome : outcome = op.onValues scope.data values :=
    meaning_of_isEager (isEager_of_mem_comparisons op hop) hcount hvalues
  have hcount : op.arity.admits values.length := by rwa [← hvalues.length_eq]
  rw [houtcome]
  exact ⟨fun hmade => onValues_of_container hop hcount hcontainer hmade scope.data,
    fun hearly => onValues_of_isDecidedEarly hop hcount hearly scope.data⟩

/-- A price is held against a list of limits. That is refused if the price is over the least one, and
passes unnoticed if it is not. -/
theorem containers_refused_price :
    let scope : Scope := ⟨.object [("limits", .array []), ("price", .unsigned 3)], false⟩
    let between (least : Json) : Expr :=
      .operation "<" [.literal least, .var "price" none, .var "limits" none]
    (∃ mismatch, (between (.unsigned 1)).meaning .empty scope =
      (.error (.typeMismatch mismatch) : Except Error Json)) ∧
    (between (.unsigned 5)).meaning .empty scope = (.ok (.bool false) : Except Error Json) := by
  intro scope between
  have hvalues (least : Json) : List.Forall₂ (fun (arg : Expr) value =>
      arg.meaning .empty scope = (.ok value : Except Error Json))
      [.literal least, .var "price" none, .var "limits" none] [least, .unsigned 3, .array []] :=
    .cons rfl (.cons rfl (.cons rfl .nil))
  have hcontainer (least : Json) : ∃ v ∈ [least, .unsigned 3, .array []], v.isContainer :=
    ⟨.array [], by simp, rfl⟩
  have hop : Operator.less ∈ comparisons := by decide
  obtain ⟨hrefused, -⟩ := containers_refused hop rfl (hvalues (.unsigned 1)) (hcontainer (.unsigned 1))
  obtain ⟨-, hearly⟩ := containers_refused hop rfl (hvalues (.unsigned 5)) (hcontainer (.unsigned 5))
  refine ⟨?_, hearly ⟨_, _, _, rfl, rfl⟩⟩
  obtain ⟨a, b, -, -, houtcome⟩ := hrefused fun ⟨a, b, c, heq, hheld⟩ => by
    cases heq
    cases hheld
  exact ⟨_, houtcome⟩

/-- An array is no upper limit, and nobody is told so. -/
theorem container_unnoticed :
    let expr : Expr := .operation "<" [.literal (.unsigned 2), .literal (.unsigned 1), .array []]
    (Expr.array []).eval .empty (.object []) = .ok (.array []) ∧ (Json.array []).isContainer ∧
      Operator.less.arity.admits 3 ∧ expr.eval .empty (.object []) = .ok (.bool false) :=
  ⟨rfl, rfl, rfl, rfl⟩

end Expr

end CampaignRules
