import CampaignRules.Json.Coercion
import CampaignRules.Proofs.Json.Equality
import CampaignRules.Proofs.Number.Value

/-! # Numbers among the values

A number is a word or a float, and it is worth the same whichever of them it is. A result that is
whole becomes a word. That keeps its worth, but for `2 ^ 63`: the test whether a word can hold the
result lets this one pass, and no word can hold it. -/

namespace CampaignRules.Json

open Binary64

/-- The quotient that a number is. -/
def quotient? : Json → Option ℚ
  | .unsigned n => some n.toNat
  | .signed n => some n.toInt
  | .float x => (ofFloat x).value?
  | _ => none

variable {v : Json} {x : Float} {r : ℚ} {n : Int}

/-- A whole number up to `2 ^ 53` is the same as a float. -/
theorem exists_toFloat? (hv : v.quotient? = some (n : ℚ)) (hn : n.natAbs ≤ 2 ^ 53) :
    ∃ x, v.toFloat? = some x ∧ x.isNaN = false ∧ (ofFloat x).value? = some (n : ℚ) := by
  cases v with
  | unsigned k =>
      obtain rfl : (k.toNat : Int) = n := by exact_mod_cast Option.some.inj hv
      exact ⟨_, rfl, isNaN_ofRatio _ _ _, value?_ofInt hn⟩
  | signed k =>
      obtain rfl : k.toInt = n := by exact_mod_cast Option.some.inj hv
      exact ⟨_, rfl, isNaN_ofRatio _ _ _, value?_ofInt hn⟩
  | float x =>
      refine ⟨x, rfl, ?_, hv⟩
      cases hx : ofFloat x with
      | finite negative m q => exact isNaN_of_finite hx
      | nan | infinity =>
          rw [quotient?, hx] at hv
          cases hv
  | _ => cases hv

/-- The value that stands for a number: a word if the number is whole and a word can hold it, and the
float otherwise. -/
structure StandsFor (v : Json) (x : Float) (r : ℚ) : Prop where
  quotient : v.quotient? = some r
  word : ∀ n : Int, r = n → -2 ^ 63 ≤ n → n < 2 ^ 63 → v = .signed (Int64.ofInt n)
  float : (∀ n : Int, r = n → n < -2 ^ 63 ∨ 2 ^ 63 ≤ n) → v = .float x

theorem ofNumber_of_whole (hx : (ofFloat x).value? = some (n : ℚ)) :
    ofNumber x = if -2 ^ 63 ≤ n ∧ n ≤ 2 ^ 63 then .signed (toInt64 x) else .float x := by
  have h63 : (power 2 63 : Int) = 2 ^ 63 := rfl
  have hwhole := isWhole_of_value? hx
  have htruncate := truncate?_of_value? hx
  unfold ofNumber
  cases hbits : ofFloat x with
  | nan | infinity =>
      rw [hbits] at hx
      cases hx
  | finite negative m q =>
      rw [hbits] at hwhole htruncate
      dsimp only
      rw [hwhole, htruncate, h63]
      dsimp only
      congr 1
      rw [Bool.and_eq_true, decide_eq_true_eq, decide_eq_true_eq]

theorem ofNumber_of_fraction (hx : (ofFloat x).value? = some r) (hr : ∀ n : Int, r ≠ n) :
    ofNumber x = .float x := by
  unfold ofNumber
  cases hbits : ofFloat x with
  | nan | infinity =>
      rw [hbits] at hx
      cases hx
  | finite negative m q =>
      rw [hbits] at hx
      dsimp only
      cases hwhole : (finite negative m q).isWhole with
      | false => rfl
      | true =>
          obtain ⟨n, -, hn⟩ := truncate?_of_isWhole hwhole
          rw [hx] at hn
          exact absurd (Option.some.inj hn) (hr n)

/-- Every number but `2 ^ 63` is worth the same as a value. -/
theorem ofNumber_standsFor (hx : (ofFloat x).value? = some r) (htop : r ≠ 2 ^ 63) :
    (ofNumber x).StandsFor x r := by
  by_cases hwhole : ∃ n : Int, r = n
  · obtain ⟨n, rfl⟩ := hwhole
    have htop : n ≠ 2 ^ 63 := fun heq => htop (by rw [heq]; norm_num)
    rw [ofNumber_of_whole hx]
    by_cases hrange : -2 ^ 63 ≤ n ∧ n < 2 ^ 63
    · obtain ⟨hlow, hhigh⟩ := hrange
      rw [if_pos ⟨hlow, hhigh.le⟩, toInt64_of_value? hx hlow hhigh]
      refine ⟨?_, fun k hk _ _ => ?_, fun hno => ?_⟩
      · rw [quotient?, Int64.toInt_ofInt_of_le hlow hhigh]
      · rw [Int.cast_inj.1 hk]
      · have := hno n rfl
        omega
    · rw [if_neg (by omega)]
      refine ⟨hx, fun k hk hlow hhigh => ?_, fun _ => rfl⟩
      obtain rfl : n = k := Int.cast_inj.1 hk
      exact absurd ⟨hlow, hhigh⟩ hrange
  · rw [not_exists] at hwhole
    rw [ofNumber_of_fraction hx hwhole]
    exact ⟨hx, fun k hk _ _ => absurd hk (hwhole k), fun _ => rfl⟩

/-- The least whole number that no word can hold becomes the lowest word. -/
theorem ofNumber_top (hx : (ofFloat x).value? = some (2 ^ 63)) :
    ofNumber x = .signed Int64.minValue := by
  have hwhole : (ofFloat x).value? = some (((2 ^ 63 : Int)) : ℚ) := by exact_mod_cast hx
  rw [ofNumber_of_whole hwhole, if_pos (by decide), toInt64_of_value?_top hx]

end CampaignRules.Json
