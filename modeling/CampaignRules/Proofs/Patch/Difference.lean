import CampaignRules.Proofs.Patch.Writes
import Mathlib.Data.List.Nodup

/-! # Differences are exact

Two objects are equal if and only if they do not differ at any key. A diff is told by the same test: its
variables are the keys at which the variables differ, its fields the keys at which the documents do. So
a diff is empty for equal documents only. In each of its variables the diff has what is to be done about
it, and doing so gives the variables that the other document has. -/

namespace CampaignRules.Patch

open Json (Members)

variable {name key : Bytes} {before after document : Json} {a b : Members}

/-- Objects are equal if and only if they differ at no key. -/
theorem membersEqual_iff : ∀ {a b : Members}, Members.Sorted a → Members.Sorted b →
    (Json.membersEqual a b ↔ ∀ key, Diff.fieldDiffers a b key = false)
  | [], [], _, _ => by simp [Json.membersEqual, Diff.fieldDiffers, Members.get?]
  | [], (l, y) :: bs, _, _ => by
      refine iff_of_false Bool.false_ne_true fun hsame => ?_
      simpa [Diff.fieldDiffers, Members.get?] using hsame l
  | (k, x) :: as, [], _, _ => by
      refine iff_of_false Bool.false_ne_true fun hsame => ?_
      simpa [Diff.fieldDiffers, Members.get?] using hsame k
  | (k, x) :: as, (l, y) :: bs, ha, hb => by
      obtain ⟨hk, has⟩ := Members.sorted_cons_iff.1 ha
      obtain ⟨hl, hbs⟩ := Members.sorted_cons_iff.1 hb
      rw [Json.membersEqual, Bool.and_eq_true, Bool.and_eq_true, beq_iff_eq, membersEqual_iff has hbs]
      constructor
      · rintro ⟨⟨rfl, hxy⟩, hrest⟩ key
        by_cases hkey : k = key
        · simp [Diff.fieldDiffers, Members.get?, hkey, hxy]
        · simpa [Diff.fieldDiffers, Members.get?, hkey] using hrest key
      · intro hsame
        -- the lesser of two first keys would be missing on the other side
        have hnlt : ¬k < l := by
          intro hlt
          have h := hsame k
          rw [Diff.fieldDiffers, Members.get?_eq_none_of_lt_first hb hlt, Members.get?, if_pos rfl] at h
          cases h
        have hngt : ¬l < k := by
          intro hgt
          have h := hsame l
          rw [Diff.fieldDiffers, Members.get?_eq_none_of_lt_first ha hgt, Members.get?, if_pos rfl] at h
          cases h
        obtain rfl : k = l := by grind
        refine ⟨⟨rfl, by simpa [Diff.fieldDiffers, Members.get?] using hsame k⟩, fun key => ?_⟩
        by_cases hkey : k = key
        · subst hkey
          rw [Diff.fieldDiffers, Members.get?_eq_none_of_lt hk, Members.get?_eq_none_of_lt hl]
        · simpa [Diff.fieldDiffers, Members.get?, hkey] using hsame key

/-- No variable is named twice. -/
theorem nodup_variableNames (hbefore : Members.Sorted (variablesOf before))
    (hafter : Members.Sorted (variablesOf after)) :
    (Diff.between before after).variableNames.Nodup := by
  have hadded : (Members.keys (Diff.between before after).added).Nodup :=
    (List.Pairwise.nodup hafter).sublist (List.filter_sublist.map _)
  have hmodified : ((Diff.between before after).modified.map (·.1)).Nodup := by
    have hincreasing : ((Diff.between before after).modified.map (·.1)).Pairwise (· < ·) := by
      refine List.pairwise_map.2 ((Members.sorted_iff.1 hafter).filterMap _ ?_)
      intro first last hlt named hnamed named' hnamed'
      obtain ⟨_, -, rfl⟩ := Option.map_eq_some_iff.1 hnamed
      obtain ⟨_, -, rfl⟩ := Option.map_eq_some_iff.1 hnamed'
      exact hlt
    exact hincreasing.nodup
  have hremoved : (Diff.between before after).removed.Nodup := (List.Pairwise.nodup hbefore).filter _
  refine List.nodup_append'.2 ⟨List.nodup_append'.2 ⟨hadded, hmodified, ?_⟩, hremoved, ?_⟩
  · intro name hname hname'
    obtain ⟨⟨_, value⟩, hmem, rfl⟩ := List.mem_map.1 hname
    obtain ⟨⟨_, change⟩, hmem', rfl⟩ := List.mem_map.1 hname'
    have hnone := ((mem_added_iff hafter).1 hmem).2
    have hsome := ((mem_modified_iff hafter).1 hmem').2.1
    cases hnone.symm.trans hsome
  · intro name hname hname'
    have hgone := (mem_removed_iff.1 hname').1
    rcases List.mem_append.1 hname with hname | hname
    · obtain ⟨⟨_, value⟩, hmem, rfl⟩ := List.mem_map.1 hname
      cases hgone.symm.trans ((mem_added_iff hafter).1 hmem).1
    · obtain ⟨⟨_, change⟩, hmem, rfl⟩ := List.mem_map.1 hname
      cases hgone.symm.trans ((mem_modified_iff hafter).1 hmem).1

/-- What is done about each variable: it is removed, or it gets a new value. -/
def Diff.changes (diff : Diff) : List (Bytes × Option Json) :=
  diff.removed.map (·, none) ++ diff.modified.map (fun (name, change) => (name, some change.new)) ++
    diff.added.map fun (name, value) => (name, some value)

/-- Erases the variables that were removed, then stores the new values of those that were modified and
of those that were added. -/
def Diff.replay (diff : Diff) (members : Members) : Members :=
  diff.changes.foldl (fun members change => Members.put change.1 change.2 members) members

theorem mem_changes_iff {diff : Diff} :
    name ∈ diff.changes.map (·.1) ↔ name ∈ diff.variableNames := by
  simp only [Diff.changes, Diff.variableNames, Members.keys, List.map_append, List.map_map,
    Function.comp_def, List.mem_append, List.map_id']
  tauto

/-- If all changes of a name fill its slot alike, that is what it holds in the end. -/
theorem get?_foldl_put (slot : Option Json) {changes : List (Bytes × Option Json)}
    (hslot : ∀ change ∈ changes, change.1 = name → change.2 = slot) : ∀ members : Members,
    Members.get? name (changes.foldl (fun members change => Members.put change.1 change.2 members) members)
      = if name ∈ changes.map (·.1) then slot else Members.get? name members := by
  induction changes with
  | nil => exact fun members => rfl
  | cons first rest ih =>
      intro members
      obtain ⟨hfirst, hrest⟩ := List.forall_mem_cons.1 hslot
      rw [List.foldl_cons, ih hrest, Members.get?_put, List.map_cons]
      by_cases hname : first.1 = name
      · simp [hname, hfirst hname]
      · have hother : name ≠ first.1 := Ne.symm hname
        simp only [List.mem_cons, hother, if_false, false_or]

theorem sorted_replay (diff : Diff) (hsorted : Members.Sorted a) : Members.Sorted (diff.replay a) := by
  rw [Diff.replay]
  induction diff.changes generalizing a with
  | nil => exact hsorted
  | cons first rest ih => exact ih (Members.sorted_put first.1 first.2 hsorted)

/-- After a replay the variables that differed are as in the other document, and the others as they
were. -/
theorem get?_replay (hafter : Members.Sorted (variablesOf after)) (name : Bytes) :
    Members.get? name ((Diff.between before after).replay (variablesOf before)) =
      if name ∈ (Diff.between before after).variableNames then variableValue? name after
      else variableValue? name before := by
  rw [Diff.replay, get?_foldl_put (variableValue? name after)]
  · simp only [mem_changes_iff]
    rfl
  · intro change hmem hname
    simp only [Diff.changes, List.mem_append, List.mem_map] at hmem
    rcases hmem with (⟨_, hremoved, rfl⟩ | ⟨⟨_, _⟩, hmodified, rfl⟩) | ⟨⟨_, _⟩, hadded, rfl⟩
    · exact hname ▸ (mem_removed_iff.1 hremoved).1.symm
    · exact hname ▸ ((mem_modified_iff hafter).1 hmodified).1.symm
    · exact hname ▸ ((mem_added_iff hafter).1 hadded).1.symm

theorem mem_keys_of_fieldDiffers (hdiffers : Diff.fieldDiffers a b key = true) :
    key ∈ Bytes.unionSorted (Members.keys a) (Members.keys b) := by
  rw [Bytes.unionSorted, Bytes.mem_foldl_insertSorted, Members.mem_keys_iff, Members.mem_keys_iff]
  by_contra hneither
  simp only [not_or, not_not] at hneither
  rw [Diff.fieldDiffers, hneither.1, hneither.2] at hdiffers
  cases hdiffers

theorem fieldsChanged_of_not_objects (hobjects : ¬(before.isObject ∧ after.isObject)) :
    Diff.fieldsChanged before after = if before.equal after then [] else [[]] := by
  cases before with
  | object a =>
      cases after with
      | object b => exact absurd ⟨rfl, rfl⟩ hobjects
      | _ => rfl
  | _ => rfl

/-- No field differs between documents if and only if they are equal. -/
theorem fieldsChanged_eq_nil_iff (hbefore : before.IsCanonical) (hafter : after.IsCanonical) :
    Diff.fieldsChanged before after = [] ↔ before.equal after := by
  by_cases hobjects : before.isObject ∧ after.isObject
  · cases before with
    | object a =>
        cases after with
        | object b =>
            rw [Json.equal, membersEqual_iff hbefore.1 hafter.1]
            simp only [Diff.fieldsChanged, List.filter_eq_nil_iff, Bool.not_eq_true]
            constructor
            · intro hsame key
              by_contra hdiffers
              rw [Bool.not_eq_false] at hdiffers
              exact absurd (hsame key (mem_keys_of_fieldDiffers hdiffers)) (by simp [hdiffers])
            · exact fun hsame key _ => hsame key
        | _ => cases hobjects.2
    | _ => cases hobjects.1
  · rw [fieldsChanged_of_not_objects hobjects]
    simp

theorem variablesOf_eq_nil (hno : ∀ held, document.get? "variables" = some held → held.isObject = false) :
    variablesOf document = [] := by
  rw [variablesOf]
  split
  · rename_i held hheld
    cases hno _ hheld
  · rfl

/-- What is equal under `variables` holds equal variables. -/
theorem fieldDiffers_variablesOf_of_equal {v w : Json} (hv : v.IsCanonical) (hw : w.IsCanonical)
    (hbefore : before.get? "variables" = some v) (hafter : after.get? "variables" = some w)
    (hequal : v.equal w) (name : Bytes) :
    Diff.fieldDiffers (variablesOf before) (variablesOf after) name = false := by
  cases hobject : v.isObject with
  | true =>
      obtain ⟨old, rfl⟩ : ∃ old, v = .object old := by cases v <;> first | exact ⟨_, rfl⟩ | cases hobject
      obtain ⟨new, rfl, hmembers⟩ := Json.equal_object_iff.1 hequal
      rw [variablesOf, hbefore, variablesOf, hafter]
      exact (membersEqual_iff hv.1 hw.1).1 hmembers name
  | false =>
      have hobject' : w.isObject = false := (Json.isObject_of_equal hequal).symm.trans hobject
      have hnone : variablesOf before = [] :=
        variablesOf_eq_nil fun held hheld => Option.some.inj (hbefore.symm.trans hheld) ▸ hobject
      have hnone' : variablesOf after = [] :=
        variablesOf_eq_nil fun held hheld => Option.some.inj (hafter.symm.trans hheld) ▸ hobject'
      rw [hnone, hnone', Diff.fieldDiffers, Members.get?]

/-- Equal documents have equal variables. -/
theorem fieldDiffers_variablesOf (hbefore : before.IsCanonical) (hafter : after.IsCanonical)
    (hequal : before.equal after) (name : Bytes) :
    Diff.fieldDiffers (variablesOf before) (variablesOf after) name = false := by
  have hfield : (before.get? "variables" = none ∧ after.get? "variables" = none) ∨
      ∃ v w, before.get? "variables" = some v ∧ after.get? "variables" = some w ∧ v.equal w := by
    cases before with
    | object a =>
        obtain ⟨b, rfl, hmembers⟩ := Json.equal_object_iff.1 hequal
        have hsame := (membersEqual_iff hbefore.1 hafter.1).1 hmembers "variables"
        rw [Diff.fieldDiffers] at hsame
        simp only [Json.get?]
        grind
    | _ =>
        refine .inl ⟨rfl, ?_⟩
        cases after <;> first | rfl | cases Json.isObject_of_equal hequal
  rcases hfield with ⟨hnone, hnone'⟩ | ⟨v, w, hv, hw, hvw⟩
  · have hempty : variablesOf before = [] := by rw [variablesOf, hnone]
    have hempty' : variablesOf after = [] := by rw [variablesOf, hnone']
    rw [hempty, hempty', Diff.fieldDiffers, Members.get?]
  · exact fieldDiffers_variablesOf_of_equal (Json.isCanonical_of_get? hbefore hv)
      (Json.isCanonical_of_get? hafter hw) hv hw hvw name

/-- A diff is empty if and only if the documents are equal. -/
theorem isEmpty_between_iff (hbefore : before.IsCanonical) (hafter : after.IsCanonical) :
    (Diff.between before after).isEmpty ↔ before.equal after := by
  rw [← fieldsChanged_eq_nil_iff hbefore hafter]
  constructor
  · intro hempty
    simp only [Diff.isEmpty, Bool.and_eq_true, List.isEmpty_iff] at hempty
    exact hempty.2
  · intro hfields
    have hequal := (fieldsChanged_eq_nil_iff hbefore hafter).1 hfields
    have hnames : (Diff.between before after).variableNames = [] := by
      refine List.eq_nil_iff_forall_not_mem.2 fun name hmem => ?_
      have hdiffers := (mem_variableNames_iff (sorted_variablesOf hafter)).1 hmem
      exact Bool.false_ne_true ((fieldDiffers_variablesOf hbefore hafter hequal name).symm.trans hdiffers)
    simp only [Diff.variableNames, Members.keys, List.append_eq_nil_iff, List.map_eq_nil_iff] at hnames
    simp only [Diff.isEmpty, Bool.and_eq_true, List.isEmpty_iff]
    exact ⟨⟨hnames.1, hnames.2⟩, hfields⟩

/-- A replay leads to variables that differ nowhere from those of the other document. -/
theorem fieldDiffers_replay (hafter : after.IsCanonical) (hfree : after.NanFree) (name : Bytes) :
    Diff.fieldDiffers ((Diff.between before after).replay (variablesOf before)) (variablesOf after) name
      = false := by
  have hsorted := sorted_variablesOf hafter
  rw [Diff.fieldDiffers, get?_replay hsorted]
  by_cases hmem : name ∈ (Diff.between before after).variableNames
  · rw [if_pos hmem, variableValue?]
    cases hvalue : Members.get? name (variablesOf after) with
    | none => rfl
    | some value =>
        show (!value.equal value) = false
        rw [Json.equal_self (nanFree_of_variableValue? hfree hvalue)]
        rfl
  · rw [if_neg hmem]
    rw [mem_variableNames_iff hsorted, Bool.not_eq_true] at hmem
    exact hmem

/-- The diff of two documents is empty if and only if they are equal. It names no variable twice. If the
removed variables are erased from the variables of the one document and the new values of the modified
and the added ones are stored there, the outcome equals the variables of the other, unless there is a NaN
in them. -/
theorem diff_exact (hbefore : before.IsCanonical) (hafter : after.IsCanonical) :
    let diff := Diff.between before after
    (diff.isEmpty ↔ before.equal after) ∧ diff.variableNames.Nodup ∧
      (after.NanFree →
        (Json.object (diff.replay (variablesOf before))).equal (.object (variablesOf after))) := by
  refine ⟨isEmpty_between_iff hbefore hafter,
    nodup_variableNames (sorted_variablesOf hbefore) (sorted_variablesOf hafter), fun hfree => ?_⟩
  refine Json.equal_object_iff.2 ⟨_, rfl, ?_⟩
  rw [membersEqual_iff (sorted_replay _ (sorted_variablesOf hbefore)) (sorted_variablesOf hafter)]
  exact fieldDiffers_replay hafter hfree

/-- Food that is counted as a whole number is the same amount, while the gold is spent, the ore sold and
wood bought. -/
theorem diff_exact_market :
    let before : Json := .object [("id", "k1"), ("variables", .object
      [("food", .float 2.0), ("gold", .unsigned 7), ("ore", .array [.unsigned 1])])]
    let after : Json := .object [("id", "k1"), ("variables", .object
      [("food", .unsigned 2), ("gold", .unsigned 0), ("wood", .unsigned 5)])]
    let diff := Diff.between before after
    diff.isEmpty = false ∧ before.equal after = false ∧ diff.variableNames = ["wood", "gold", "ore"] ∧
      diff.variableNames.Nodup ∧
      (Json.object (diff.replay (variablesOf before))).equal (.object (variablesOf after)) := by
  intro before after diff
  have hbefore : before.IsCanonical := by
    simp only [before, Json.IsCanonical, Json.MembersCanonical, Json.ItemsCanonical, Members.Sorted]
    decide
  have hafter : after.IsCanonical := by
    simp only [after, Json.IsCanonical, Json.MembersCanonical, Members.Sorted]
    decide
  have hfree : after.NanFree := by
    simp only [after, Json.NanFree, Json.MembersNanFree]
    decide
  obtain ⟨hempty, hnames, hreplay⟩ := diff_exact hbefore hafter
  have hdiffer : before.equal after = false := by decide +kernel
  refine ⟨?_, hdiffer, by decide +kernel, hnames, hreplay hfree⟩
  rwa [← Bool.not_eq_true, hempty, Bool.not_eq_true]

end CampaignRules.Patch
