import CampaignRules.Expr.Validation
import CampaignRules.Proofs.Expr.Failure
import CampaignRules.Proofs.Expr.Observation
import CampaignRules.Proofs.Expr.Reading

/-! # What a check finds nothing wrong with

The check walks a value by itself and counts depth from zero, whereas reading counts levels from
one; the list of the arguments is a level for neither. A check without findings means that the
value spells an expression, that this ends within the limit, and that all of its operators are
known. Known operators leave an evaluation no way to fail for an unknown one. -/

namespace CampaignRules.Expr

variable {registry : Registry} {limit depth : Nat}

/-- The language or the registry gives the operator a meaning. -/
def Known (registry : Registry) (name : Bytes) : Prop :=
  Operator.isStandardName name ∨ registry.has name

/-- At this depth the expression ends within the limit, and its operators are known. -/
def Fits (registry : Registry) (limit depth : Nat) (expr : Expr) : Prop :=
  depth + expr.depth ≤ limit + 1 ∧ ∀ name ∈ expr.operators, Known registry name

def ItemsFit (registry : Registry) (limit depth : Nat) (exprs : List Expr) : Prop :=
  depth + itemsDepth exprs ≤ limit + 1 ∧ ∀ name ∈ itemsOperators exprs, Known registry name

theorem Fits.depth_le {expr : Expr} (h : Fits registry limit depth expr) : depth ≤ limit := by
  have hpos := expr.depth_pos
  have hle := h.1
  omega

@[simp] theorem fits_literal {value : Json} :
    Fits registry limit depth (.literal value) ↔ depth ≤ limit := by
  simp [Fits, Expr.depth, operators]

@[simp] theorem fits_array {exprs : List Expr} :
    Fits registry limit depth (.array exprs) ↔ ItemsFit registry limit (depth + 1) exprs := by
  rw [Fits, ItemsFit, Expr.depth, operators, ← Nat.add_assoc, Nat.add_right_comm]

@[simp] theorem fits_var {path : Bytes} :
    Fits registry limit depth (.var path none) ↔ depth ≤ limit := by
  simp [Fits, Expr.depth, operators]

@[simp] theorem fits_var_default {path : Bytes} {default : Expr} :
    Fits registry limit depth (.var path (some default)) ↔
      Fits registry limit (depth + 1) default := by
  rw [Fits, Fits, Expr.depth, operators, ← Nat.add_assoc, Nat.add_right_comm]

@[simp] theorem fits_operation {operator : Bytes} {args : List Expr} :
    Fits registry limit depth (.operation operator args) ↔
      Known registry operator ∧ ItemsFit registry limit (depth + 1) args := by
  rw [Fits, ItemsFit, Expr.depth, operators, ← Nat.add_assoc, Nat.add_right_comm,
    List.forall_mem_cons]
  exact and_left_comm

@[simp] theorem itemsFit_nil : ItemsFit registry limit depth [] ↔ depth ≤ limit + 1 := by
  simp [ItemsFit, itemsDepth, itemsOperators]

@[simp] theorem itemsFit_cons {expr : Expr} {exprs : List Expr} :
    ItemsFit registry limit depth (expr :: exprs) ↔
      Fits registry limit depth expr ∧ ItemsFit registry limit depth exprs := by
  rw [ItemsFit, itemsDepth, itemsOperators, List.forall_mem_append, ← Nat.add_max_add_left,
    Nat.max_le]
  exact and_and_and_comm

theorem itemsFit_singleton {expr : Expr} :
    ItemsFit registry limit depth [expr] ↔ Fits registry limit depth expr := by
  rw [itemsFit_cons, itemsFit_nil, and_iff_left_iff_imp]
  exact fun h => Nat.le_succ_of_le h.depth_le

theorem operatorFindings_eq_nil_iff {operator : Bytes} :
    operatorFindings registry operator = [] ↔ Known registry operator := by
  simp [operatorFindings, Known, Classical.or_iff_not_imp_left]

theorem isVarPath_iff {arg : Json} : isVarPath arg ↔ ∃ path, varPath arg = .ok path := by
  cases arg <;> simp [isVarPath, varPath]

theorem varFindings_eq_nil_iff {arg : Json} (harray : ∀ items, arg ≠ .array items) :
    varFindings arg = [] ↔ ∃ path, varPath arg = .ok path := by
  rw [← isVarPath_iff]
  cases arg with
  | array items => exact absurd rfl (harray items)
  | _ => simp [varFindings]

theorem varFindings_list_eq_nil_iff {arg : Json} {rest : List Json} :
    varFindings (.array (arg :: rest)) = [] ↔
      (∃ path, varPath arg = .ok path) ∧ rest.length ≤ 1 := by
  rw [← isVarPath_iff]
  simp [varFindings]

/-! The findings at the one member of an object, for a reference, a list of arguments and an only
argument. -/

theorem memberFindings_reference (arg : Json) :
    memberFindings registry limit depth [("var", arg)] = varFindings arg ++
      match arg with
      | .array [_, default] => findings registry limit depth default
      | _ => [] := by
  unfold memberFindings
  rw [if_pos rfl]
  unfold memberFindings
  exact List.append_nil _

theorem memberFindings_operation {operator : Bytes} (hvar : operator ≠ "var") (items : List Json) :
    memberFindings registry limit depth [(operator, .array items)] =
      operatorFindings registry operator ++ itemFindings registry limit depth items := by
  unfold memberFindings
  rw [if_neg hvar]
  unfold memberFindings
  rw [List.append_nil]

theorem memberFindings_onlyArg {operator : Bytes} {arg : Json} (hvar : operator ≠ "var")
    (harray : ∀ items, arg ≠ .array items) :
    memberFindings registry limit depth [(operator, arg)] =
      operatorFindings registry operator ++ findings registry limit depth arg := by
  unfold memberFindings
  rw [if_neg hvar]
  unfold memberFindings
  rw [List.append_nil]
  cases arg with
  | array items => exact absurd rfl (harray items)
  | _ => rfl

/-- A reference, given what holds of its default. -/
theorem referenceFindings_eq_nil_iff {arg : Json} (hdepth : depth ≤ limit)
    (hdefault : ∀ path default, arg = .array [path, default] →
      (findings registry limit (depth + 1) default = [] ↔
        ∃ expr, Spells default expr ∧ Fits registry limit (depth + 1) expr)) :
    memberFindings registry limit (depth + 1) [("var", arg)] = [] ↔
      ∃ expr, Spells (.object [("var", arg)]) expr ∧ Fits registry limit depth expr := by
  rw [memberFindings_reference, List.append_eq_nil_iff]
  cases arg with
  | array items =>
      rcases items with _ | ⟨arg, _ | ⟨default, _ | ⟨more, rest⟩⟩⟩
      · exact iff_of_true ⟨rfl, rfl⟩ ⟨.var [] none, .noPath, fits_var.2 hdepth⟩
      · rw [and_iff_left rfl, varFindings_list_eq_nil_iff, List.length_nil,
          and_iff_left (Nat.zero_le 1)]
        constructor
        · rintro ⟨path, hpath⟩
          exact ⟨.var path none, .listedPath hpath, fits_var.2 hdepth⟩
        · rintro ⟨expr, hspells, -⟩
          cases hspells with
          | scalar hscalar => cases hscalar
          | path hpath => cases hpath
          | listedPath hpath => exact ⟨_, hpath⟩
          | operation hvar _ | onlyArg hvar _ _ => exact absurd rfl hvar
      · rw [varFindings_list_eq_nil_iff, List.length_singleton, and_iff_left (Nat.le_refl 1),
          hdefault arg default rfl]
        constructor
        · rintro ⟨⟨path, hpath⟩, expr, hspells, hfit⟩
          exact ⟨.var path (some expr), .default hpath hspells, fits_var_default.2 hfit⟩
        · rintro ⟨expr, hspells, hfit⟩
          cases hspells with
          | scalar hscalar => cases hscalar
          | path hpath => cases hpath
          | default hpath hspells => exact ⟨⟨_, hpath⟩, _, hspells, fits_var_default.1 hfit⟩
          | operation hvar _ | onlyArg hvar _ _ => exact absurd rfl hvar
      · rw [varFindings_list_eq_nil_iff]
        refine iff_of_false (by simp) ?_
        rintro ⟨expr, hspells, -⟩
        cases hspells with
        | scalar hscalar => cases hscalar
        | path hpath => cases hpath
        | operation hvar _ | onlyArg hvar _ _ => exact absurd rfl hvar
  | _ =>
      rw [and_iff_left rfl, varFindings_eq_nil_iff (fun _ h => by cases h)]
      constructor
      · rintro ⟨path, hpath⟩
        exact ⟨.var path none, .path hpath, fits_var.2 hdepth⟩
      · rintro ⟨expr, hspells, -⟩
        cases hspells with
        | scalar hscalar => cases hscalar
        | path hpath => exact ⟨_, hpath⟩
        | onlyArg hvar _ _ => exact absurd rfl hvar

/-- An operation, given what holds of its arguments. -/
theorem operationFindings_eq_nil_iff {operator : Bytes} {arg : Json} (hvar : operator ≠ "var")
    (hargs : ∀ items, arg = .array items → (itemFindings registry limit (depth + 1) items = [] ↔
      ∃ exprs, ItemsSpell items exprs ∧ ItemsFit registry limit (depth + 1) exprs))
    (harg : findings registry limit (depth + 1) arg = [] ↔
      ∃ expr, Spells arg expr ∧ Fits registry limit (depth + 1) expr) :
    memberFindings registry limit (depth + 1) [(operator, arg)] = [] ↔
      ∃ expr, Spells (.object [(operator, arg)]) expr ∧ Fits registry limit depth expr := by
  by_cases harray : ∃ items, arg = .array items
  · obtain ⟨items, rfl⟩ := harray
    rw [memberFindings_operation hvar, List.append_eq_nil_iff, operatorFindings_eq_nil_iff,
      hargs items rfl]
    constructor
    · rintro ⟨hknown, exprs, hitems, hfits⟩
      exact ⟨.operation operator exprs, .operation hvar hitems, fits_operation.2 ⟨hknown, hfits⟩⟩
    · rintro ⟨expr, hspells, hfit⟩
      cases hspells with
      | scalar hscalar => cases hscalar
      | operation _ hitems =>
          rw [fits_operation] at hfit
          exact ⟨hfit.1, _, hitems, hfit.2⟩
      | onlyArg _ harray => exact absurd rfl (harray items)
      | _ => exact absurd rfl hvar
  · rw [not_exists] at harray
    rw [memberFindings_onlyArg hvar harray, List.append_eq_nil_iff, operatorFindings_eq_nil_iff, harg]
    constructor
    · rintro ⟨hknown, expr, hspells, hfit⟩
      exact ⟨.operation operator [expr], .onlyArg hvar harray hspells,
        fits_operation.2 ⟨hknown, itemsFit_singleton.2 hfit⟩⟩
    · rintro ⟨expr, hspells, hfit⟩
      cases hspells with
      | scalar hscalar => cases hscalar
      | operation _ _ => exact absurd rfl (harray _)
      | onlyArg _ _ hspells =>
          rw [fits_operation, itemsFit_singleton] at hfit
          exact ⟨hfit.1, _, hspells, hfit.2⟩
      | _ => exact absurd rfl hvar

mutual

theorem findings_eq_nil_iff (depth : Nat) (node : Json) :
    findings registry limit depth node = [] ↔
      ∃ expr, Spells node expr ∧ Fits registry limit depth expr := by
  by_cases hdepth : depth ≤ limit
  · have hlimit : ¬depth > limit := Nat.not_lt.2 hdepth
    unfold findings
    rw [if_neg hlimit]
    cases node with
    | array items =>
        rw [itemFindings_eq_nil_iff (by omega)]
        constructor
        · rintro ⟨exprs, hitems, hfit⟩
          exact ⟨.array exprs, .array hitems, fits_array.2 hfit⟩
        · rintro ⟨expr, hspells, hfit⟩
          cases hspells with
          | scalar hscalar => cases hscalar
          | array hitems => exact ⟨_, hitems, fits_array.1 hfit⟩
    | object members =>
        rcases members with _ | ⟨⟨key, arg⟩, _ | ⟨second, rest⟩⟩
        · refine iff_of_false (List.cons_ne_nil _ _) ?_
          rintro ⟨expr, hspells, -⟩
          cases hspells with
          | scalar hscalar => cases hscalar
        · show memberFindings registry limit (depth + 1) [(key, arg)] = [] ↔ _
          by_cases hkey : key = "var"
          · subst hkey
            refine referenceFindings_eq_nil_iff hdepth fun path default harg => ?_
            subst harg
            exact findings_eq_nil_iff (depth + 1) default
          · refine operationFindings_eq_nil_iff hkey (fun items harg => ?_)
              (findings_eq_nil_iff (depth + 1) arg)
            subst harg
            exact itemFindings_eq_nil_iff (by omega) items
        · refine iff_of_false (by simp) ?_
          rintro ⟨expr, hspells, -⟩
          cases hspells with
          | scalar hscalar => cases hscalar
    | _ => exact iff_of_true rfl ⟨.literal _, .scalar rfl, fits_literal.2 hdepth⟩
  · unfold findings
    rw [if_pos (Nat.lt_of_not_le hdepth)]
    refine iff_of_false (List.cons_ne_nil _ _) ?_
    rintro ⟨expr, -, hfit⟩
    exact hdepth hfit.depth_le

theorem itemFindings_eq_nil_iff {depth : Nat} (hdepth : depth ≤ limit + 1) (items : List Json) :
    itemFindings registry limit depth items = [] ↔
      ∃ exprs, ItemsSpell items exprs ∧ ItemsFit registry limit depth exprs := by
  cases items with
  | nil => exact iff_of_true rfl ⟨[], .nil, itemsFit_nil.2 hdepth⟩
  | cons item rest =>
      rw [itemFindings, List.append_eq_nil_iff, findings_eq_nil_iff depth item,
        itemFindings_eq_nil_iff hdepth rest]
      constructor
      · rintro ⟨⟨expr, hitem, hfit⟩, exprs, hrest, hfits⟩
        exact ⟨expr :: exprs, .cons hitem hrest, itemsFit_cons.2 ⟨hfit, hfits⟩⟩
      · rintro ⟨_, hitems, hfits⟩
        cases hitems with
        | cons hitem hrest =>
            rw [itemsFit_cons] at hfits
            exact ⟨⟨_, hitem, hfits.1⟩, _, hrest, hfits.2⟩

end

theorem withoutRepeats_eq_nil_iff {found : List Finding} :
    Finding.withoutRepeats found = [] ↔ found = [] := by
  cases found with
  | nil => exact iff_of_true rfl rfl
  | cons finding rest => exact iff_of_false (List.cons_ne_nil _ _) (List.cons_ne_nil _ _)

/-- Nothing is found if the value is not null and spells an expression that fits. -/
theorem check_eq_nil_iff {value : Json} :
    check registry limit value = [] ↔
      value ≠ .null ∧ ∃ expr, Spells value expr ∧ Fits registry limit 0 expr := by
  by_cases hnull : value = .null
  · subst hnull
    exact iff_of_false (List.cons_ne_nil _ _) fun h => h.1 rfl
  · have hisNull : value.isNull = false := by
      cases value with
      | null => exact absurd rfl hnull
      | _ => rfl
    rw [check, hisNull, if_neg Bool.false_ne_true, withoutRepeats_eq_nil_iff,
      findings_eq_nil_iff 0 value, and_iff_right hnull]

/-! ### Evaluation with known operators -/

/-- The failure is not that an operator is unknown. -/
def OtherThanUnknown (e : Error) : Prop :=
  ∀ name, e ≠ .unknownOperator name

theorem Known.exists_meaning {name : Bytes} (hknown : Known registry name) (hvar : name ≠ "var") :
    ¬(Operator.ofName? name = none ∧ registry.find? name = none) := by
  rintro ⟨hstandard, hfind⟩
  rcases hknown with hname | hname
  · simp [Operator.isStandardName, hvar, hstandard] at hname
  · simp [Registry.has, hfind] at hname

/-- No operator is found unknown while an expression with known operators is evaluated, unless a
registered operator says so itself. -/
theorem otherThanUnknown_eval {value : Json} {expr : Expr} (hread : ofJson value = .ok expr)
    (hknown : ∀ name ∈ expr.operators, Known registry name)
    (hregistered : ∀ op ∈ registry.operators, ∀ args data name,
      op.apply args data ≠ .error (.unknownOperator name)) (context : Json) :
    FailsOnly OtherThanUnknown (expr.eval registry context) := by
  have hbound : registry.FailsWithin OtherThanUnknown := by
    refine ⟨?_, ?_⟩
    · rintro _ hfault name rfl
      exact hfault
    · rintro op hop args data _ hfailed - name rfl
      exact hregistered op hop args data name hfailed
  refine (staysWithin_meaning hbound expr (fun name hname hstandard hfind => ?_)
    ⟨context, false⟩ trivial).1
  have hvar : name ≠ "var" := ne_var_of_ofJsonAt hread name hname
  exact absurd ⟨hstandard, hfind⟩ ((hknown name hname).exists_meaning hvar)

/-- A check finds nothing exactly if the value is not null and is read as an expression that has no
more levels than allowed and knows all its operators. Its evaluation then finds none of them
unknown, traced or not, unless a registered operator fails with that error itself. -/
theorem check_agrees_with_reading (registry : Registry) {limit : Nat} (hlimit : limit < maxNesting)
    (value : Json) :
    (check registry limit value = [] ↔ value ≠ .null ∧ ∃ expr, ofJson value = .ok expr ∧
      expr.depth ≤ limit + 1 ∧
      ∀ name ∈ expr.operators, Operator.isStandardName name ∨ registry.has name) ∧
    (check registry limit value = [] →
      (∀ op ∈ registry.operators, ∀ args data name,
        op.apply args data ≠ .error (.unknownOperator name)) →
      ∀ expr, ofJson value = .ok expr → ∀ context name,
        expr.eval registry context ≠ .error (.unknownOperator name) ∧
          (expr.evalTraced registry context).outcome ≠ .error (.unknownOperator name)) := by
  have hvalid : check registry limit value = [] ↔ value ≠ .null ∧ ∃ expr, ofJson value = .ok expr ∧
      expr.depth ≤ limit + 1 ∧ ∀ name ∈ expr.operators, Known registry name := by
    rw [check_eq_nil_iff]
    refine and_congr_right fun _ => exists_congr fun expr => ?_
    rw [ofJson_eq_ok_iff, Fits, Nat.zero_add]
    constructor
    · rintro ⟨hspells, hdepth, hknown⟩
      exact ⟨⟨hspells, by omega⟩, hdepth, hknown⟩
    · rintro ⟨⟨hspells, -⟩, hdepth, hknown⟩
      exact ⟨hspells, hdepth, hknown⟩
  refine ⟨hvalid, fun hcheck hregistered expr hread context name => ?_⟩
  obtain ⟨-, expr', hread', -, hknown⟩ := hvalid.1 hcheck
  obtain rfl : expr' = expr := Except.ok.inj (hread'.symm.trans hread)
  have heval : expr'.eval registry context ≠ .error (.unknownOperator name) := fun hfailed =>
    otherThanUnknown_eval hread hknown hregistered context _ hfailed name rfl
  exact ⟨heval, by rwa [outcome_evalTraced]⟩

/-- A registered operator rolls a die three levels below the root. -/
theorem check_agrees_with_reading_die :
    let registry : Registry := ⟨[⟨"die", fun _ _ => .error (.external "no die at hand")⟩]⟩
    let value : Json := .object [("if", .array [.object [("var", .array ["armed", .bool true])],
      .array [.object [("die", .unsigned 6)]]])]
    let expr : Expr := .operation "if" [.var "armed" (some (.literal (.bool true))),
      .array [.operation "die" [.literal (.unsigned 6)]]]
    check registry 3 value = [] ∧ check registry 2 value ≠ [] ∧ check .empty 3 value ≠ [] ∧
      ∀ context name, expr.eval registry context ≠ .error (.unknownOperator name) := by
  intro registry value expr
  have hread : ofJson value = .ok expr := rfl
  have hknown : ∀ name ∈ expr.operators, Operator.isStandardName name ∨ registry.has name := by
    decide
  have hlimit : 3 < maxNesting := by decide
  have h := check_agrees_with_reading registry hlimit value
  have hcheck : check registry 3 value = [] := h.1.2 ⟨by simp [value], expr, hread, by decide, hknown⟩
  refine ⟨hcheck, by decide, by decide, fun context name => ?_⟩
  exact (h.2 hcheck (by simp [registry]) expr hread context name).1

end CampaignRules.Expr
