import CampaignRules.Proofs.Expr.WireForm

/-! # What reading an expression decides

Whether a value is read as an expression has two sides that do not meet: the forms that its parts
have, which says nothing about levels, and the depth of the result, which says all about them. -/

namespace CampaignRules.Expr

mutual

/-- The value spells the expression, however deep it is. -/
inductive Spells : Json → Expr → Prop
  | scalar {value : Json} (hscalar : value.isContainer = false) : Spells value (.literal value)
  | array {items : List Json} {exprs : List Expr} (hitems : ItemsSpell items exprs) :
      Spells (.array items) (.array exprs)
  | noPath : Spells (.object [("var", .array [])]) (.var [] none)
  | path {arg : Json} {path : Bytes} (hpath : varPath arg = .ok path) :
      Spells (.object [("var", arg)]) (.var path none)
  | listedPath {arg : Json} {path : Bytes} (hpath : varPath arg = .ok path) :
      Spells (.object [("var", .array [arg])]) (.var path none)
  | default {arg value : Json} {path : Bytes} {expr : Expr} (hpath : varPath arg = .ok path)
      (hdefault : Spells value expr) :
      Spells (.object [("var", .array [arg, value])]) (.var path (some expr))
  | operation {operator : Bytes} {items : List Json} {exprs : List Expr} (hvar : operator ≠ "var")
      (hargs : ItemsSpell items exprs) :
      Spells (.object [(operator, .array items)]) (.operation operator exprs)
  | onlyArg {operator : Bytes} {arg : Json} {expr : Expr} (hvar : operator ≠ "var")
      (harray : ∀ items, arg ≠ .array items) (harg : Spells arg expr) :
      Spells (.object [(operator, arg)]) (.operation operator [expr])

inductive ItemsSpell : List Json → List Expr → Prop
  | nil : ItemsSpell [] []
  | cons {item : Json} {items : List Json} {expr : Expr} {exprs : List Expr}
      (hitem : Spells item expr) (hitems : ItemsSpell items exprs) :
      ItemsSpell (item :: items) (expr :: exprs)

end

mutual

theorem spells_of_ofJsonAt {level : Nat} {value : Json} {expr : Expr}
    (hread : ofJsonAt level value = .ok expr) : Spells value expr := by
  unfold ofJsonAt at hread
  split at hread
  · cases hread
  · split at hread
    · obtain ⟨exprs, hitems, heq⟩ := bind_eq_ok.1 hread
      cases heq
      exact .array (itemsSpell_of_ofJsonItems hitems)
    · split at hread
      · rename_i hkey
        subst hkey
        split at hread
        · cases hread
          exact .noPath
        · obtain ⟨path, hpath, heq⟩ := bind_eq_ok.1 hread
          cases heq
          exact .listedPath hpath
        · obtain ⟨default, hdefault, hrest⟩ := bind_eq_ok.1 hread
          obtain ⟨path, hpath, heq⟩ := bind_eq_ok.1 hrest
          cases heq
          exact .default hpath (spells_of_ofJsonAt hdefault)
        · cases hread
        · obtain ⟨path, hpath, heq⟩ := bind_eq_ok.1 hread
          cases heq
          exact .path hpath
      · rename_i hkey
        split at hread
        · obtain ⟨args, hargs, heq⟩ := bind_eq_ok.1 hread
          cases heq
          exact .operation hkey (itemsSpell_of_ofJsonItems hargs)
        · rename_i harray
          obtain ⟨arg, harg, heq⟩ := bind_eq_ok.1 hread
          cases heq
          exact .onlyArg hkey harray (spells_of_ofJsonAt harg)
    · cases hread
    · rename_i harray _ hobject
      cases hread
      refine .scalar ?_
      cases value with
      | array items => exact absurd rfl (harray items)
      | object members => exact absurd rfl (hobject members)
      | _ => rfl

theorem itemsSpell_of_ofJsonItems {level : Nat} {items : List Json} {exprs : List Expr}
    (hread : ofJsonItems level items = .ok exprs) : ItemsSpell items exprs := by
  unfold ofJsonItems at hread
  split at hread
  · cases hread
    exact .nil
  · obtain ⟨item, hitem, htail⟩ := bind_eq_ok.1 hread
    obtain ⟨rest, hrest, heq⟩ := bind_eq_ok.1 htail
    cases heq
    exact .cons (spells_of_ofJsonAt hitem) (itemsSpell_of_ofJsonItems hrest)

end

mutual

theorem ofJsonAt_of_spells {level : Nat} {value : Json} {expr : Expr} (h : Spells value expr)
    (hdepth : level + expr.depth ≤ maxNesting + 1) : ofJsonAt level value = .ok expr := by
  have hlevel : ¬level > maxNesting := by
    have := expr.depth_pos
    omega
  unfold ofJsonAt
  rw [if_neg hlevel]
  cases h with
  | @scalar value hscalar =>
      cases value with
      | array _ | object _ => cases hscalar
      | _ => rfl
  | @array items exprs hitems =>
      have hread : ofJsonItems (level + 1) items = .ok exprs :=
        ofJsonItems_of_itemsSpell hitems (by rw [depth] at hdepth; omega)
      simp only [hread]
      rfl
  | noPath => rfl
  | @path arg path hpath =>
      cases arg with
      | array items => cases hpath
      | _ =>
          simp only [if_true, hpath]
          rfl
  | listedPath hpath =>
      simp only [if_true, hpath]
      rfl
  | @default arg value path expr hpath hdefault =>
      have hread : ofJsonAt (level + 1) value = .ok expr :=
        ofJsonAt_of_spells hdefault (by rw [depth] at hdepth; omega)
      simp only [if_true, hpath, hread]
      rfl
  | @operation operator items exprs hvar hargs =>
      have hread : ofJsonItems (level + 1) items = .ok exprs :=
        ofJsonItems_of_itemsSpell hargs (by rw [depth] at hdepth; omega)
      simp only [if_neg hvar, hread]
      rfl
  | @onlyArg operator arg expr hvar harray harg =>
      have hread : ofJsonAt (level + 1) arg = .ok expr :=
        ofJsonAt_of_spells harg (by rw [depth, itemsDepth, itemsDepth] at hdepth; omega)
      cases arg with
      | array items => exact absurd rfl (harray items)
      | _ =>
          simp only [if_neg hvar, hread]
          rfl

theorem ofJsonItems_of_itemsSpell {level : Nat} {items : List Json} {exprs : List Expr}
    (h : ItemsSpell items exprs) (hdepth : level + itemsDepth exprs ≤ maxNesting + 1) :
    ofJsonItems level items = .ok exprs := by
  cases h with
  | nil => rfl
  | cons hitem hitems =>
      rw [itemsDepth] at hdepth
      rw [ofJsonItems, ofJsonAt_of_spells hitem (by omega),
        ofJsonItems_of_itemsSpell hitems (by omega)]
      rfl

end

/-- A value is read as what it spells, provided that this is not too deep. -/
theorem ofJson_eq_ok_iff {value : Json} {expr : Expr} :
    ofJson value = .ok expr ↔ Spells value expr ∧ expr.depth ≤ maxNesting := by
  constructor
  · intro hread
    have hdepth := (regular_of_ofJsonAt hread).2
    exact ⟨spells_of_ofJsonAt hread, by omega⟩
  · rintro ⟨h, hdepth⟩
    exact ofJsonAt_of_spells h (by omega)

end CampaignRules.Expr
