import CampaignRules.Proofs.Json.Members
import CampaignRules.Proofs.Json.Numeric

/-! # Strict equality, structure by structure

Two numbers are strictly equal if they are as floats, but inside of arrays and objects two words are
compared by their bits. So there are words that strict equality tells apart at one depth and not at
another. But for these it looks into arrays and objects item by item and member by member, and what
is wrapped in the same way on both sides is equal as it was before. -/

namespace CampaignRules.Json

open Binary64

/-- The whole number that a word is. -/
def whole? : Json → Option Int
  | .unsigned n => some n.toNat
  | .signed n => some n.toInt
  | _ => none

/-- Two words are confused if they are the same number as floats but not the same bits, or the
reverse. -/
def Confused (a b : Json) : Prop :=
  ∃ m n, a.whole? = some m ∧ b.whole? = some n ∧
    ¬((ofInt m == ofInt n) = true ↔ (2 ^ 64 : Int) ∣ m - n)

variable {a b : Json} {m n : Int}

theorem strictlyEqual_of_whole (ha : a.whole? = some m) (hb : b.whole? = some n) :
    strictlyEqual a b = (ofInt m == ofInt n) := by
  cases a with
  | unsigned | signed =>
      cases b with
      | unsigned | signed =>
          cases ha
          cases hb
          rfl
      | _ => cases hb
  | _ => cases ha

/-- A signed and an unsigned word are compared as signed words. -/
theorem toInt64_eq_iff {k : UInt64} {l : Int64} : k.toInt64 = l ↔ (2 ^ 64 : Int) ∣ k.toNat - l.toInt := by
  have hk : k.toNat < 2 ^ 64 := k.toNat_lt
  have hlow := l.le_toInt
  have hhigh := l.toInt_lt
  have hword : k.toInt64.toInt = if 2 * k.toNat < 2 ^ 64 then (k.toNat : Int) else k.toNat - 2 ^ 64 :=
    BitVec.toInt_eq_toNat_cond k.toBitVec
  rw [← Int64.toInt_inj, hword]
  split <;> omega

/-- Words are equal if they have the same bits. -/
theorem equal_of_whole (ha : a.whole? = some m) (hb : b.whole? = some n) :
    a.equal b ↔ (2 ^ 64 : Int) ∣ m - n := by
  cases a with
  | unsigned k =>
      cases ha
      cases b with
      | unsigned l =>
          cases hb
          have hk := k.toNat_lt
          have hl := l.toNat_lt
          show (k == l) = true ↔ _
          rw [beq_iff_eq, ← UInt64.toNat_inj]
          omega
      | signed l =>
          cases hb
          show (k.toInt64 == l) = true ↔ _
          rw [beq_iff_eq, toInt64_eq_iff]
      | _ => cases hb
  | signed k =>
      cases ha
      cases b with
      | unsigned l =>
          cases hb
          show (k == l.toInt64) = true ↔ _
          rw [beq_iff_eq, eq_comm, toInt64_eq_iff]
          omega
      | signed l =>
          cases hb
          have hk := k.toInt_lt
          have hl := l.toInt_lt
          have hk' := k.le_toInt
          have hl' := l.le_toInt
          show (k == l) = true ↔ _
          rw [beq_iff_eq, ← Int64.toInt_inj]
          omega
      | _ => cases hb
  | _ => cases ha

theorem strictlyEqual_eq_equal_of_none (hno : a.whole? = none ∨ b.whole? = none) :
    strictlyEqual a b = a.equal b := by
  cases a <;> cases b <;> first | rfl | simp [whole?] at hno

/-- Strict equality is equality of values but for words that are confused. -/
theorem strictlyEqual_eq_equal_iff : strictlyEqual a b = a.equal b ↔ ¬Confused a b := by
  cases ha : a.whole? with
  | none =>
      refine iff_of_true (strictlyEqual_eq_equal_of_none (.inl ha)) fun ⟨m, n, hm, _⟩ => ?_
      rw [ha] at hm
      cases hm
  | some m =>
      cases hb : b.whole? with
      | none =>
          refine iff_of_true (strictlyEqual_eq_equal_of_none (.inr hb)) fun ⟨m, n, _, hn, _⟩ => ?_
          rw [hb] at hn
          cases hn
      | some n =>
          have hwords : Confused a b ↔ ¬((ofInt m == ofInt n) = true ↔ (2 ^ 64 : Int) ∣ m - n) := by
            simp [Confused, ha, hb]
          rw [hwords, not_not, ← equal_of_whole ha hb, strictlyEqual_of_whole ha hb, Bool.eq_iff_iff]

/-- Up to `2 ^ 53` no two whole numbers are the same float. -/
theorem ofInt_beq_iff (hm : m.natAbs ≤ 2 ^ 53) (hn : n.natAbs ≤ 2 ^ 53) :
    (ofInt m == ofInt n) = true ↔ m = n := by
  constructor
  · intro hequal
    have hvalue := value?_eq_of_beq hequal
    rw [value?_ofInt hm, value?_ofInt hn] at hvalue
    exact_mod_cast Option.some.inj hvalue
  · rintro rfl
    exact beq_self_of_isNaN (isNaN_ofRatio _ _ _)

/-- Of two words that are confused one is beyond `2 ^ 53`. -/
theorem large_of_confused (hconfused : Confused a b) :
    ∃ m n, a.whole? = some m ∧ b.whole? = some n ∧ (2 ^ 53 < m.natAbs ∨ 2 ^ 53 < n.natAbs) := by
  obtain ⟨m, n, hm, hn, hdiffer⟩ := hconfused
  refine ⟨m, n, hm, hn, ?_⟩
  by_contra hsmall
  rw [not_or, not_lt, not_lt] at hsmall
  refine hdiffer ((ofInt_beq_iff hsmall.1 hsmall.2).trans ?_)
  -- they are too close together to differ by a multiple of `2 ^ 64`
  omega

variable {as bs : List Json}

theorem itemsEqual_iff : ∀ {as bs : List Json}, itemsEqual as bs ↔ List.Forall₂ (fun a b => a.equal b) as bs
  | [], [] => by simp [itemsEqual]
  | [], _ :: _ => by simp [itemsEqual]
  | _ :: _, [] => by simp [itemsEqual]
  | a :: as, b :: bs => by rw [itemsEqual, Bool.and_eq_true, itemsEqual_iff, List.forall₂_cons]

/-- Items are compared as they are by themselves. -/
theorem strictlyEqual_array_iff (hclear : ∀ pair ∈ as.zip bs, ¬Confused pair.1 pair.2) :
    strictlyEqual (.array as) (.array bs) ↔ List.Forall₂ (fun a b => strictlyEqual a b) as bs := by
  have hitems : strictlyEqual (.array as) (.array bs) = itemsEqual as bs := rfl
  rw [hitems, itemsEqual_iff, List.forall₂_iff_zip, List.forall₂_iff_zip]
  refine and_congr_right fun _ => ⟨fun hequal a b hmem => ?_, fun hequal a b hmem => ?_⟩
  · rw [strictlyEqual_eq_equal_iff.2 (hclear _ hmem)]
    exact hequal hmem
  · rw [← strictlyEqual_eq_equal_iff.2 (hclear _ hmem)]
    exact hequal hmem

theorem membersEqual_iff_forall₂ : ∀ {as bs : Members},
    membersEqual as bs ↔ List.Forall₂ (fun a b => a.1 = b.1 ∧ a.2.equal b.2) as bs
  | [], [] => by simp [membersEqual]
  | [], _ :: _ => by simp [membersEqual]
  | _ :: _, [] => by simp [membersEqual]
  | (k, a) :: as, (l, b) :: bs => by
    rw [membersEqual, Bool.and_eq_true, Bool.and_eq_true, beq_iff_eq, membersEqual_iff_forall₂,
      List.forall₂_cons]

/-- Members that are related one by one are those of the same keys. -/
theorem forall₂_iff_get? {R : Json → Json → Prop} : ∀ {as bs : Members}, Members.Sorted as →
    (List.Forall₂ (fun a b => a.1 = b.1 ∧ R a.2 b.2) as bs ↔ Members.keys as = Members.keys bs ∧
      ∀ key v w, Members.get? key as = some v → Members.get? key bs = some w → R v w)
  | [], [], _ => by simp [Members.keys, Members.get?]
  | [], _ :: _, _ => by simp [Members.keys]
  | _ :: _, [], _ => by simp [Members.keys]
  | (k, a) :: as, (l, b) :: bs, hsorted => by
    obtain ⟨hfirst, hrest⟩ := Members.sorted_cons_iff.1 hsorted
    have hkeys : Members.keys ((k, a) :: as) = Members.keys ((l, b) :: bs) ↔
        k = l ∧ Members.keys as = Members.keys bs := List.cons_eq_cons
    rw [List.forall₂_cons, forall₂_iff_get? hrest, hkeys]
    constructor
    · rintro ⟨⟨rfl, hfirst⟩, hsame, hlater⟩
      refine ⟨⟨rfl, hsame⟩, fun key v w hv hw => ?_⟩
      rw [Members.get?] at hv hw
      by_cases hkey : k = key
      · rw [if_pos hkey] at hv hw
        cases hv
        cases hw
        exact hfirst
      · rw [if_neg hkey] at hv hw
        exact hlater key v w hv hw
    · rintro ⟨⟨rfl, hsame⟩, hall⟩
      refine ⟨⟨rfl, hall k a b (if_pos rfl) (if_pos rfl)⟩, hsame, fun key v w hv hw => ?_⟩
      -- the first key does not come again
      have hkey : k ≠ key := by
        rintro rfl
        rw [Members.get?_eq_none_of_lt hfirst] at hv
        cases hv
      exact hall key v w ((if_neg hkey).trans hv) ((if_neg hkey).trans hw)

/-- Members are compared as they are by themselves, key by key. -/
theorem strictlyEqual_object_iff {as bs : Members} (hsorted : Members.Sorted as)
    (hclear : ∀ key v w, Members.get? key as = some v → Members.get? key bs = some w → ¬Confused v w) :
    strictlyEqual (.object as) (.object bs) ↔ Members.keys as = Members.keys bs ∧
      ∀ key v w, Members.get? key as = some v → Members.get? key bs = some w → strictlyEqual v w := by
  have hmembers : strictlyEqual (.object as) (.object bs) = membersEqual as bs := rfl
  rw [hmembers, membersEqual_iff_forall₂, forall₂_iff_get? (R := fun v w => v.equal w) hsorted]
  refine and_congr_right fun _ => ⟨fun hequal key v w hv hw => ?_, fun hequal key v w hv hw => ?_⟩
  · rw [strictlyEqual_eq_equal_iff.2 (hclear key v w hv hw)]
    exact hequal key v w hv hw
  · rw [← strictlyEqual_eq_equal_iff.2 (hclear key v w hv hw)]
    exact hequal key v w hv hw

/-! ### Values in a structure -/

/-- An array or an object with a place left open among its items or members. -/
inductive Layer where
  | item (before after : List Json)
  | member (before : Members) (key : Bytes) (after : Members)

namespace Layer

def fill : Layer → Json → Json
  | item before after, v => .array (before ++ v :: after)
  | member before key after, v => .object (before ++ (key, v) :: after)

/-- Two layers are open at the same place and equal everywhere else. -/
def Equal : Layer → Layer → Prop
  | item before after, item before' after' => itemsEqual before before' ∧ itemsEqual after after'
  | member before key after, member before' key' after' =>
    membersEqual before before' ∧ key = key' ∧ membersEqual after after'
  | _, _ => False

theorem itemsEqual_append {a b : Json} {after after' : List Json} (hafter : itemsEqual after after') :
    ∀ {before before' : List Json}, itemsEqual before before' →
      itemsEqual (before ++ a :: after) (before' ++ b :: after') = a.equal b
  | [], [], _ => by rw [List.nil_append, List.nil_append, itemsEqual, hafter, Bool.and_true]
  | [], _ :: _, h => by cases h
  | _ :: _, [], h => by cases h
  | v :: before, w :: before', h => by
    rw [itemsEqual, Bool.and_eq_true] at h
    rw [List.cons_append, List.cons_append, itemsEqual, h.1, itemsEqual_append hafter h.2, Bool.true_and]

theorem membersEqual_append {a b : Json} {key : Bytes} {after after' : Members}
    (hafter : membersEqual after after') : ∀ {before before' : Members}, membersEqual before before' →
      membersEqual (before ++ (key, a) :: after) (before' ++ (key, b) :: after') = a.equal b
  | [], [], _ => by
    rw [List.nil_append, List.nil_append, membersEqual, hafter, beq_self_eq_true, Bool.true_and,
      Bool.and_true]
  | [], _ :: _, h => by cases h
  | _ :: _, [], h => by cases h
  | (k, v) :: before, (l, w) :: before', h => by
    rw [membersEqual, Bool.and_eq_true] at h
    rw [List.cons_append, List.cons_append, membersEqual, h.1, membersEqual_append hafter h.2,
      Bool.true_and]

theorem equal_fill {layer other : Layer} (hlayers : layer.Equal other) (a b : Json) :
    (layer.fill a).equal (other.fill b) = a.equal b := by
  cases layer with
  | item before after =>
      cases other with
      | item before' after' => exact itemsEqual_append hlayers.2 hlayers.1
      | member => cases hlayers
  | member before key after =>
      cases other with
      | item => cases hlayers
      | member before' key' after' =>
          obtain ⟨hbefore, rfl, hafter⟩ := hlayers
          exact membersEqual_append hafter hbefore

end Layer

/-- A value under layers, the first of which is the outermost. -/
def wrap (layers : List Layer) (v : Json) : Json :=
  layers.foldr Layer.fill v

variable {layers others : List Layer}

theorem equal_wrap (hlayers : List.Forall₂ Layer.Equal layers others) (a b : Json) :
    (wrap layers a).equal (wrap others b) = a.equal b := by
  induction hlayers with
  | nil => rfl
  | cons hlayer _ ih => exact (Layer.equal_fill hlayer _ _).trans ih

theorem not_confused_fill (layer : Layer) (a b : Json) : ¬Confused (layer.fill a) b := by
  rintro ⟨m, n, hm, -, -⟩
  cases layer <;> cases hm

/-- Wrapping two values in equal structures keeps whether they are strictly equal, unless they are
words that are confused. Of these it never does. -/
theorem strictlyEqual_wrap_iff (hlayers : List.Forall₂ Layer.Equal layers others) (hne : layers ≠ []) :
    strictlyEqual (wrap layers a) (wrap others b) = strictlyEqual a b ↔ ¬Confused a b := by
  have hwrapped : ¬Confused (wrap layers a) (wrap others b) := by
    cases hlayers with
    | nil => exact absurd rfl hne
    | cons hlayer hrest => exact not_confused_fill _ _ _
  rw [strictlyEqual_eq_equal_iff.2 hwrapped, equal_wrap hlayers, eq_comm, strictlyEqual_eq_equal_iff]

theorem strictlyEqual_wrap (hlayers : List.Forall₂ Layer.Equal layers others) (hclear : ¬Confused a b) :
    strictlyEqual (wrap layers a) (wrap others b) = strictlyEqual a b := by
  cases hlayers with
  | nil => rfl
  | cons hlayer hrest =>
      exact (strictlyEqual_wrap_iff (.cons hlayer hrest) (List.cons_ne_nil _ _)).2 hclear

end CampaignRules.Json
