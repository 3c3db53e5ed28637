import CampaignRules.Expr.Basic
import CampaignRules.Proofs.Failure

/-! # Reading back what is written

Reading knows several spellings of one expression: an only argument without its list, and a path as
a text, a number, null or a list of at most two values. Writing knows one. What reading gives has a
regular form, in which literals are scalars and no operation is called like a reference, and its
depth is within the bound that the level of its value leaves. An expression of regular form and of
such a depth is read from what it is written as. -/

namespace CampaignRules.Expr

mutual

/-- Literals are scalars, and no operation has the name under which references are written. -/
def IsRegular : Expr → Prop
  | .literal value => value.isContainer = false
  | .array items => ItemsRegular items
  | .var _ none => True
  | .var _ (some default) => IsRegular default
  | .operation operator args => operator ≠ "var" ∧ ItemsRegular args

def ItemsRegular : List Expr → Prop
  | [] => True
  | item :: rest => IsRegular item ∧ ItemsRegular rest

end

mutual

/-- An expression that was read is regular, and its levels fit below those above its value. -/
theorem regular_of_ofJsonAt {level : Nat} {value : Json} {expr : Expr}
    (hread : ofJsonAt level value = .ok expr) :
    expr.IsRegular ∧ level + expr.depth ≤ maxNesting + 1 := by
  unfold ofJsonAt at hread
  split at hread
  · cases hread
  · rename_i hlevel
    rw [Nat.not_lt] at hlevel
    split at hread
    · obtain ⟨items, hitems, heq⟩ := bind_eq_ok.1 hread
      cases heq
      obtain ⟨hregular, hdepth⟩ := regular_of_ofJsonItems (by omega) hitems
      exact ⟨hregular, by rw [depth]; omega⟩
    · split at hread
      · split at hread
        · cases hread
          exact ⟨trivial, by rw [depth]; omega⟩
        · obtain ⟨path, -, heq⟩ := bind_eq_ok.1 hread
          cases heq
          exact ⟨trivial, by rw [depth]; omega⟩
        · obtain ⟨default, hdefault, hpath⟩ := bind_eq_ok.1 hread
          obtain ⟨path, -, heq⟩ := bind_eq_ok.1 hpath
          cases heq
          obtain ⟨hregular, hdepth⟩ := regular_of_ofJsonAt hdefault
          exact ⟨hregular, by rw [depth]; omega⟩
        · cases hread
        · obtain ⟨path, -, heq⟩ := bind_eq_ok.1 hread
          cases heq
          exact ⟨trivial, by rw [depth]; omega⟩
      · rename_i hkey
        split at hread
        · obtain ⟨args, hargs, heq⟩ := bind_eq_ok.1 hread
          cases heq
          obtain ⟨hregular, hdepth⟩ := regular_of_ofJsonItems (by omega) hargs
          exact ⟨⟨hkey, hregular⟩, by rw [depth]; omega⟩
        · -- the only argument stands on the same level as it would in a list
          obtain ⟨arg, harg, heq⟩ := bind_eq_ok.1 hread
          cases heq
          obtain ⟨hregular, hdepth⟩ := regular_of_ofJsonAt harg
          exact ⟨⟨hkey, hregular, trivial⟩, by rw [depth, itemsDepth, itemsDepth]; omega⟩
    · cases hread
    · rename_i harray _ hobject
      cases hread
      refine ⟨?_, by rw [depth]; omega⟩
      cases value with
      | array items => exact absurd rfl (harray items)
      | object members => exact absurd rfl (hobject members)
      | _ => rfl

theorem regular_of_ofJsonItems {level : Nat} {items : List Json} {exprs : List Expr}
    (hlevel : level ≤ maxNesting + 1) (hread : ofJsonItems level items = .ok exprs) :
    ItemsRegular exprs ∧ level + itemsDepth exprs ≤ maxNesting + 1 := by
  unfold ofJsonItems at hread
  split at hread
  · cases hread
    exact ⟨trivial, hlevel⟩
  · obtain ⟨item, hitem, htail⟩ := bind_eq_ok.1 hread
    obtain ⟨rest, hrest, heq⟩ := bind_eq_ok.1 htail
    cases heq
    obtain ⟨hregular, hdepth⟩ := regular_of_ofJsonAt hitem
    obtain ⟨hregular', hdepth'⟩ := regular_of_ofJsonItems hlevel hrest
    exact ⟨⟨hregular, hregular'⟩, by rw [itemsDepth]; omega⟩

end

theorem depth_pos (expr : Expr) : 0 < expr.depth := by
  cases expr with
  | var path default => cases default <;> (rw [depth]; omega)
  | _ => rw [depth]; omega

mutual

theorem ofJsonAt_toJson {level : Nat} {expr : Expr} (hregular : expr.IsRegular)
    (hdepth : level + expr.depth ≤ maxNesting + 1) : ofJsonAt level expr.toJson = .ok expr := by
  have hlevel : ¬level > maxNesting := by
    have := expr.depth_pos
    omega
  unfold ofJsonAt
  rw [if_neg hlevel]
  cases expr with
  | literal value =>
      rw [toJson]
      cases value with
      | array items => cases hregular
      | object members => cases hregular
      | _ => rfl
  | array items =>
      have hitems : ofJsonItems (level + 1) (itemsToJson items) = .ok items :=
        ofJsonItems_itemsToJson hregular (by rw [depth] at hdepth; omega)
      simp only [toJson, hitems]
      rfl
  | var path default =>
      cases default with
      | none => rfl
      | some default =>
          have hdefault : ofJsonAt (level + 1) default.toJson = .ok default :=
            ofJsonAt_toJson hregular (by rw [depth] at hdepth; omega)
          simp only [toJson, if_true, hdefault]
          rfl
  | operation operator args =>
      obtain ⟨hkey, hregular⟩ := hregular
      have hargs : ofJsonItems (level + 1) (itemsToJson args) = .ok args :=
        ofJsonItems_itemsToJson hregular (by rw [depth] at hdepth; omega)
      simp only [toJson, if_neg hkey, hargs]
      rfl

theorem ofJsonItems_itemsToJson {level : Nat} {exprs : List Expr} (hregular : ItemsRegular exprs)
    (hdepth : level + itemsDepth exprs ≤ maxNesting + 1) :
    ofJsonItems level (itemsToJson exprs) = .ok exprs := by
  cases exprs with
  | nil => rfl
  | cons item rest =>
      rw [itemsDepth] at hdepth
      rw [itemsToJson, ofJsonItems, ofJsonAt_toJson hregular.1 (by omega),
        ofJsonItems_itemsToJson hregular.2 (by omega)]
      rfl

end

/-- The expressions that some value is read as are the regular ones that are not too deep. -/
theorem exists_ofJson_iff {expr : Expr} :
    (∃ value, ofJson value = .ok expr) ↔ expr.IsRegular ∧ expr.depth ≤ maxNesting := by
  constructor
  · rintro ⟨value, hread⟩
    obtain ⟨hregular, hdepth⟩ := regular_of_ofJsonAt hread
    exact ⟨hregular, by omega⟩
  · rintro ⟨hregular, hdepth⟩
    exact ⟨expr.toJson, ofJsonAt_toJson hregular (by omega)⟩

/-- An expression that was read is read again from what it is written as, is then written the same,
and has no more levels than the nesting that is read. -/
theorem written_form_stable {value : Json} {expr : Expr} (hread : ofJson value = .ok expr) :
    ofJson expr.toJson = .ok expr ∧ (ofJson expr.toJson).map toJson = .ok expr.toJson ∧
      expr.depth ≤ maxNesting := by
  obtain ⟨hregular, hdepth⟩ := exists_ofJson_iff.1 ⟨value, hread⟩
  have hagain : ofJson expr.toJson = .ok expr := ofJsonAt_toJson hregular (by omega)
  exact ⟨hagain, by rw [hagain]; rfl, hdepth⟩

/-- Spellings that are read but not written. -/
theorem written_form_stable_spellings :
    let value : Json := .object [("if", .array [
      .object [("!", .object [("var", .unsigned 7)])],
      .array [.object [("var", .null)], .object [("var", .array [.signed (-1), .array []])]],
      .object [("cat", "toll")]])]
    let expr : Expr := .operation "if" [
      .operation "!" [.var "7" none],
      .array [.var [] none, .var "-1" (some (.array []))],
      .operation "cat" [.literal "toll"]]
    ofJson value = .ok expr ∧ ofJson expr.toJson = .ok expr ∧
      expr.toJson = .object [("if", .array [
        .object [("!", .array [.object [("var", "7")]])],
        .array [.object [("var", .string [])], .object [("var", .array ["-1", .array []])]],
        .object [("cat", .array ["toll"])]])] := by
  intro value expr
  have hread : ofJson value = .ok expr := rfl
  exact ⟨hread, (written_form_stable hread).1, rfl⟩

end CampaignRules.Expr
