import Mathlib.Data.Nat.Cast.Field
import CampaignRules.Proofs.Number.Shortest

/-! # What numbers are worth

A finite number is a quotient. Numbers that are equal are the same quotient, although zero has two
signs. A whole number up to `2 ^ 53` is itself a number, so that rounding keeps it. Cutting off a
whole number gives the number, and a word can hold it from `-2 ^ 63` up to, but not including,
`2 ^ 63`. -/

namespace CampaignRules.Binary64

/-- The quotient that a number is; a NaN or an infinity is none. -/
def value? : Binary64 → Option ℚ
  | .finite negative m q => some (if negative then -(m * 2 ^ q) else m * 2 ^ q)
  | _ => none

section

open Float.Model UnpackedFloat

theorem pack_unpack_toModel (x : Float) :
    UnpackedFloat.pack Format.binary64 x.toModel.unpack = x.toBits.toBitVec :=
  pack_unpack_of_valid x.toModel.valid

theorem eq_of_unpack_eq {x y : Float} (h : x.toModel.unpack = y.toModel.unpack) : x = y := by
  refine eq_of_toBits_eq (UInt64.eq_of_toBitVec_eq ?_)
  rw [← pack_unpack_toModel, h, pack_unpack_toModel]

/-- Two numbers that are equal are the same, or both are zero. -/
theorem eq_or_zero_of_compare {a b : UnpackedFloat} (h : a.compare b = some .eq) :
    a = b ∨ ∃ sign other, a = .zero sign ∧ b = .zero other := by
  have hplaces : ∀ {m n : Nat} {e f : Int}, (compare e f).then (compare m n) = .eq → e = f ∧ m = n := by
    intro m n e f hsame
    rw [Ordering.then_eq_eq] at hsame
    exact ⟨Std.compare_eq_iff_eq.1 hsame.1, Std.compare_eq_iff_eq.1 hsame.2⟩
  cases a with
  | notANumber => cases h
  | infinity s =>
      cases b with
      | infinity t =>
          left
          cases s <;> cases t <;> first | rfl | cases h
      | _ => cases s <;> cases h
  | zero s =>
      cases b with
      | zero t => exact .inr ⟨s, t, rfl, rfl⟩
      | notANumber => cases h
      | infinity t | finite t => cases t <;> cases h
  | finite s m e hm =>
      left
      cases b with
      | notANumber | zero => cases s <;> cases h
      | infinity t => cases s <;> cases t <;> cases h
      | finite t n f hn =>
          -- the comparison of two negative numbers is turned around, which keeps their being equal
          cases s with
          | positive =>
              cases t with
              | negative => cases h
              | positive =>
                  obtain ⟨rfl, rfl⟩ := hplaces (Option.some.inj h)
                  rfl
          | negative =>
              cases t with
              | positive => cases h
              | negative =>
                  obtain ⟨rfl, rfl⟩ := hplaces (Ordering.swap_eq_eq.1 (Option.some.inj h))
                  rfl

theorem value?_of_unpack_zero {x : Float} {sign : Sign} (h : x.toModel.unpack = .zero sign) :
    (ofFloat x).value? = some 0 := by
  have hbits : x.toBits = UInt64.ofBitVec (packedZero Format.binary64 sign) := by
    refine UInt64.eq_of_toBitVec_eq ?_
    rw [← pack_unpack_toModel, h]
    rfl
  have hzero : ofFloat x = .finite (sign == .negative) 0 (-1074) := by
    rw [ofFloat, hbits]
    cases sign <;> rfl
  rw [hzero, value?]
  simp

theorem value?_eq_of_beq {x y : Float} (h : (x == y) = true) :
    (ofFloat x).value? = (ofFloat y).value? := by
  have hcompare : (x.toModel.unpack.compare y.toModel.unpack == some .eq) = true := h
  rcases eq_or_zero_of_compare (eq_of_beq hcompare) with hsame | ⟨sign, other, hx, hy⟩
  · rw [eq_of_unpack_eq hsame]
  · rw [value?_of_unpack_zero hx, value?_of_unpack_zero hy]

end

/-- Rounding never comes to NaN. -/
theorem isNaN_ofRatio (negative : Bool) (num den : Nat) : (ofRatio negative num den).isNaN = false := by
  have h63 : power 2 63 = 2 ^ 63 := rfl
  have h52 : power 2 52 = 2 ^ 52 := rfl
  unfold ofRatio
  refine isNaN_ofBits ?_
  dsimp only
  rw [h63, h52]
  generalize hmagnitude : (if num = 0 then 0 else _) = magnitude
  have hle : magnitude ≤ 2047 * 2 ^ 52 := by
    rw [← hmagnitude]
    split
    · omega
    · exact min_le_left _ _
  show (_ % 2 ^ 64) % 2 ^ 63 ≤ _
  cases negative
  · rw [if_neg Bool.false_ne_true]
    omega
  · rw [if_pos rfl]
    omega

/-- A natural number up to `2 ^ 53` is a finite number: shifted to 53 bits, it is the significand. -/
theorem exists_fits {k : Nat} (hpos : 0 < k) (hle : k ≤ 2 ^ 53) :
    ∃ m q, Fits m q ∧ 0 < m ∧ (m : ℚ) * 2 ^ q = k := by
  rcases Nat.lt_or_ge k (2 ^ 53) with hlt | hge
  · have hlog : Nat.log2 k ≤ 52 := by
      have := Nat.log2_lt hpos.ne' (k := 53)
      omega
    obtain ⟨shift, hshift⟩ : ∃ shift, Nat.log2 k + shift = 52 := ⟨52 - Nat.log2 k, by omega⟩
    have hlow : 2 ^ 52 ≤ k * 2 ^ shift := by
      rw [← hshift, pow_add]
      exact Nat.mul_le_mul_right _ (Nat.log2_self_le hpos.ne')
    have hhigh : k * 2 ^ shift < 2 ^ 53 := by
      rw [show 53 = Nat.log2 k + 1 + shift by omega, pow_add]
      exact Nat.mul_lt_mul_of_pos_right Nat.lt_log2_self (by positivity)
    refine ⟨k * 2 ^ shift, -shift, ⟨hhigh, by omega, .inl hlow⟩, by positivity, ?_⟩
    push_cast
    rw [zpow_neg, zpow_natCast, mul_inv_cancel_right₀ (by positivity)]
  · -- one bit more than a significand has, but the last of them is zero
    obtain rfl : k = 2 ^ 53 := by omega
    refine ⟨2 ^ 52, 1, ⟨by decide, by decide, .inl le_rfl⟩, by decide, ?_⟩
    norm_num

/-- A whole number up to `2 ^ 53` is not changed by rounding. -/
theorem value?_ofInt {n : Int} (hn : n.natAbs ≤ 2 ^ 53) : (ofFloat (ofInt n)).value? = some (n : ℚ) := by
  rcases Nat.eq_zero_or_pos n.natAbs with hzero | hpos
  · obtain rfl : n = 0 := Int.natAbs_eq_zero.1 hzero
    have hbits : ofFloat (ofInt 0) = .finite false 0 (-1074) := rfl
    rw [hbits, value?]
    simp
  · obtain ⟨m, q, hfits, hm, hvalue⟩ := exists_fits hpos hn
    have hrounds : Rounds m q ((n.natAbs : ℚ) / (1 : Nat)) := by
      rw [Nat.cast_one, div_one, ← hvalue]
      exact Decimal.rounds_self m q
    rw [ofInt, ofRatio_of_rounds (by decide) hm hfits hrounds, ofFloat_ofBits hfits, value?, hvalue]
    by_cases hsign : n < 0
    · rw [if_pos (decide_eq_true hsign), Nat.cast_natAbs, abs_of_neg hsign]
      simp
    · rw [if_neg (by simpa using hsign), Nat.cast_natAbs, abs_of_nonneg (by omega)]

theorem magnitude_eq_div (m : Nat) (q : Int) :
    (m : ℚ) * 2 ^ q = (m * power 2 q : Nat) / (power 2 (-q) : Nat) := by
  rw [Nat.cast_mul, mul_div_assoc, power_div_power (by decide)]
  rfl

theorem magnitude_of_isWhole {negative : Bool} {m : Nat} {q : Int}
    (hwhole : isWhole (.finite negative m q)) : (m : ℚ) * 2 ^ q = wholePart m q := by
  have hdvd : power 2 (-q) ∣ m * power 2 q := Nat.dvd_of_mod_eq_zero (by simpa [isWhole] using hwhole)
  have hpower : (power 2 (-q) : ℚ) ≠ 0 := by exact_mod_cast (power_pos (by decide) (-q)).ne'
  rw [magnitude_eq_div, wholePart, Nat.cast_div hdvd hpower]

variable {b : Binary64} {n : Int}

/-- What is cut off a whole number is nothing. -/
theorem truncate?_of_isWhole (hwhole : b.isWhole) :
    ∃ n : Int, b.truncate? = some n ∧ b.value? = some (n : ℚ) := by
  cases b with
  | nan | infinity => cases hwhole
  | finite negative m q =>
      refine ⟨_, rfl, ?_⟩
      rw [value?, magnitude_of_isWhole hwhole]
      cases negative <;> simp

theorem isWhole_of_value? (hvalue : b.value? = some (n : ℚ)) : b.isWhole := by
  cases b with
  | nan | infinity => cases hvalue
  | finite negative m q =>
      have hpower : (power 2 (-q) : ℚ) ≠ 0 := by exact_mod_cast (power_pos (by decide) (-q)).ne'
      have hmagnitude : (m : ℚ) * 2 ^ q = (n.natAbs : ℚ) := by
        have habs : |(n : ℚ)| = m * 2 ^ q := by
          rw [← Option.some.inj hvalue]
          split
          · rw [abs_neg, abs_of_nonneg (by positivity)]
          · rw [abs_of_nonneg (by positivity)]
        rw [← habs, Nat.cast_natAbs, Int.cast_abs]
      rw [magnitude_eq_div, div_eq_iff hpower] at hmagnitude
      have hmultiple : m * power 2 q = n.natAbs * power 2 (-q) := by exact_mod_cast hmagnitude
      simp [isWhole, hmultiple]

theorem truncate?_of_value? (hvalue : b.value? = some (n : ℚ)) : b.truncate? = some n := by
  obtain ⟨k, htruncate, hk⟩ := truncate?_of_isWhole (isWhole_of_value? hvalue)
  rw [hvalue] at hk
  obtain rfl : n = k := by exact_mod_cast Option.some.inj hk
  exact htruncate

/-- A whole number that a word can hold is the word. -/
theorem toInt64_of_value? {x : Float} (hvalue : (ofFloat x).value? = some (n : ℚ))
    (hlow : -2 ^ 63 ≤ n) (hhigh : n < 2 ^ 63) : toInt64 x = Int64.ofInt n := by
  have hrange : (decide (-(power 2 63 : Int) ≤ n) && decide (n < (power 2 63 : Int))) = true := by
    have h63 : (power 2 63 : Int) = 2 ^ 63 := rfl
    rw [Bool.and_eq_true, decide_eq_true_eq, decide_eq_true_eq, h63]
    exact ⟨hlow, hhigh⟩
  rw [toInt64, truncate?_of_value? hvalue]
  exact if_pos hrange

/-- The first whole number that no word can hold becomes the lowest word. -/
theorem toInt64_of_value?_top {x : Float} (hvalue : (ofFloat x).value? = some (2 ^ 63)) :
    toInt64 x = Int64.minValue := by
  have htruncate : (ofFloat x).truncate? = some (2 ^ 63) :=
    truncate?_of_value? (by exact_mod_cast hvalue)
  rw [toInt64, htruncate]
  rfl

end CampaignRules.Binary64
