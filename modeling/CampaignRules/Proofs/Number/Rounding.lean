import Mathlib.Algebra.Order.Field.Power
import Mathlib.Data.Rat.Floor
import Mathlib.Tactic.FieldSimp
import Mathlib.Tactic.Linarith
import Mathlib.Tactic.Positivity
import Mathlib.Tactic.Ring
import CampaignRules.Proofs.Number.Bits

/-! # Rounding to the nearest number

A quotient is rounded to a number if it lies in an interval around it that reaches half way to both
neighbours. -/

namespace CampaignRules

theorem power_natCast (base exponent : Nat) : power base exponent = base ^ exponent := by
  simp [power]

/-- Of two powers with opposite exponents one stands on the other side of the quotient. -/
theorem power_div_power {base : Nat} (hbase : base ≠ 0) (exponent : Int) :
    (power base exponent : ℚ) / power base (-exponent) = (base : ℚ) ^ exponent := by
  have hbase : (base : ℚ) ≠ 0 := by exact_mod_cast hbase
  rcases Int.eq_nat_or_neg exponent with ⟨n, rfl | rfl⟩
  · have hother : power base (-(n : Int)) = 1 := by simp [power]
    rw [power_natCast, hother]
    simp
  · have hother : power base (-(n : Int)) = 1 := by simp [power]
    rw [neg_neg, power_natCast, hother]
    simp

theorem power_pos {base : Nat} (hbase : 0 < base) (exponent : Int) : 0 < power base exponent :=
  Nat.pow_pos hbase

namespace Binary64

/-- A natural number is the rounded quotient if the quotient is less than one half away from it, and
an even one also if it is exactly one half. -/
theorem roundDiv_eq {num den m : Nat} (hden : 0 < den)
    (hlow : 2 * m * den < 2 * num + den ∨ m % 2 = 0 ∧ 2 * m * den = 2 * num + den)
    (hhigh : 2 * num < 2 * m * den + den ∨ m % 2 = 0 ∧ 2 * num = 2 * m * den + den) :
    roundDiv num den = m := by
  have hdivision : num = den * (num / den) + num % den := (Nat.div_add_mod num den).symm
  have hremainder : num % den < den := Nat.mod_lt num hden
  unfold roundDiv
  dsimp only
  generalize num / den = quotient at *
  generalize num % den = remainder at *
  have hle : quotient ≤ m := by
    by_contra hlt
    have : den * (m + 1) ≤ den * quotient := Nat.mul_le_mul_left den (by omega)
    have : den * (m + 1) = m * den + den := by ring
    have : 2 * m * den = 2 * (m * den) := by ring
    omega
  have hge : m ≤ quotient + 1 := by
    by_contra hlt
    have : den * (quotient + 2) ≤ den * m := Nat.mul_le_mul_left den (by omega)
    have : den * (quotient + 2) = den * quotient + 2 * den := by ring
    have : 2 * m * den = 2 * (den * m) := by ring
    omega
  rcases Nat.eq_or_lt_of_le hle with rfl | hlt
  · have : 2 * quotient * den = 2 * (den * quotient) := by ring
    split
    · rfl
    · split
      · omega
      · omega
  · obtain rfl : m = quotient + 1 := by omega
    have : 2 * (quotient + 1) * den = 2 * (den * quotient) + 2 * den := by ring
    split
    · omega
    · split
      · rfl
      · omega

theorem scaleDown_pos {num den : Nat} (hden : 0 < den) (e : Int) : 0 < (scaleDown num den e).2 :=
  Nat.mul_pos hden (power_pos (by decide) e)

theorem scaleDown_div (num den : Nat) (e : Int) :
    ((scaleDown num den e).1 : ℚ) / (scaleDown num den e).2 = (num : ℚ) / den / 2 ^ e := by
  have htwo : ((2 : Nat) : ℚ) ^ e ≠ 0 := zpow_ne_zero e (by norm_num)
  have hpower : ((2 : Nat) : ℚ) ^ e * power 2 (-e) = power 2 e := by
    rw [← power_div_power (by decide)]
    exact div_mul_cancel₀ _ (by exact_mod_cast (power_pos (by decide) (-e)).ne')
  rw [show (2 : ℚ) = ((2 : Nat) : ℚ) from rfl]
  unfold scaleDown
  push_cast at hpower ⊢
  rw [← hpower]
  have hother : (power 2 (-e) : ℚ) ≠ 0 := by exact_mod_cast (power_pos (by decide) (-e)).ne'
  field_simp

/-- Powers of two that are some places apart. -/
theorem two_zpow_eq (n : Nat) {a b : Int} (h : a = n + b) : (2 : ℚ) ^ a = 2 ^ n * 2 ^ b := by
  rw [h, zpow_add₀ (by norm_num), zpow_natCast]

theorem log2_bounds {n : Nat} (hn : 0 < n) :
    (2 : ℚ) ^ (Nat.log2 n : Int) ≤ n ∧ (n : ℚ) < 2 ^ ((Nat.log2 n : Int) + 1) := by
  have hlow : 2 ^ Nat.log2 n ≤ n := Nat.log2_self_le hn.ne'
  have hhigh : n < 2 ^ (Nat.log2 n + 1) := Nat.lt_log2_self
  constructor
  · rw [zpow_natCast]
    exact_mod_cast hlow
  · rw [show ((Nat.log2 n : Int) + 1) = ((Nat.log2 n + 1 : Nat) : Int) by push_cast; rfl, zpow_natCast]
    exact_mod_cast hhigh

/-- The bits before a quotient can be told from those of its parts up to one. -/
theorem log2_quotient_bounds {num den : Nat} (hnum : 0 < num) (hden : 0 < den) :
    (2 : ℚ) ^ ((Nat.log2 num : Int) - Nat.log2 den - 1) < num / den ∧
      (num : ℚ) / den < 2 ^ ((Nat.log2 num : Int) - Nat.log2 den + 1) := by
  have hdenq : (0 : ℚ) < den := by exact_mod_cast hden
  obtain ⟨hnumLow, hnumHigh⟩ := log2_bounds hnum
  obtain ⟨hdenLow, hdenHigh⟩ := log2_bounds hden
  generalize (Nat.log2 num : Int) = a at *
  generalize (Nat.log2 den : Int) = b at *
  constructor
  · rw [lt_div_iff₀ hdenq]
    calc (2 : ℚ) ^ (a - b - 1) * den < 2 ^ (a - b - 1) * 2 ^ (b + 1) := by gcongr
      _ = 2 ^ a := by
        rw [← zpow_add₀ (by norm_num)]
        congr 1
        omega
      _ ≤ num := hnumLow
  · rw [div_lt_iff₀ hdenq]
    calc (num : ℚ) < 2 ^ (a + 1) := hnumHigh
      _ = 2 ^ (a - b + 1) * 2 ^ b := by
        rw [← zpow_add₀ (by norm_num)]
        congr 1
        omega
      _ ≤ 2 ^ (a - b + 1) * den := by gcongr

theorem scaleDown_lt_iff {num den : Nat} (hden : 0 < den) (e : Int) :
    (scaleDown num den e).1 < (scaleDown num den e).2 * power 2 52 ↔
      (num : ℚ) / den < 2 ^ (e + 52) := by
  have hd : (0 : ℚ) < (scaleDown num den e).2 := by exact_mod_cast scaleDown_pos hden e
  have hpower : (power 2 52 : ℚ) = 2 ^ (52 : Int) := by
    rw [show (52 : Int) = ((52 : Nat) : Int) from rfl, power_natCast, zpow_natCast, Nat.cast_pow,
      Nat.cast_ofNat]
  rw [zpow_add₀ (by norm_num), ← div_lt_iff₀' (by positivity), ← scaleDown_div, div_lt_iff₀ hd,
    ← hpower, mul_comm]
  exact_mod_cast Iff.rfl

/-- The place is determined by the 53 bits before it, but no place is below the lowest. -/
theorem lastPlace_eq {num den : Nat} {e : Int} (hnum : 0 < num) (hden : 0 < den) (he : -1074 ≤ e)
    (hhigh : (num : ℚ) / den < 2 ^ (e + 53)) (hlow : e = -1074 ∨ (2 : ℚ) ^ (e + 52) ≤ num / den) :
    lastPlace num den = e := by
  have htwo : (1 : ℚ) < 2 := by norm_num
  obtain ⟨habove, hbelow⟩ := log2_quotient_bounds hnum hden
  unfold lastPlace
  dsimp only
  generalize hguess : ((Nat.log2 num : Int) - Nat.log2 den - 52) = guess
  rw [show (Nat.log2 num : Int) - Nat.log2 den - 1 = guess + 51 by omega] at habove
  rw [show (Nat.log2 num : Int) - Nat.log2 den + 1 = guess + 53 by omega] at hbelow
  -- the guess is at most one too high
  obtain ⟨place, heq, hplaceLow, hplaceHigh⟩ : ∃ place,
      (if (scaleDown num den guess).1 < (scaleDown num den guess).2 * power 2 52
        then guess - 1 else guess) = place ∧
      (2 : ℚ) ^ (place + 52) ≤ num / den ∧ (num : ℚ) / den < 2 ^ (place + 53) := by
    simp only [scaleDown_lt_iff hden]
    split
    · rename_i hlt
      refine ⟨guess - 1, rfl, ?_, ?_⟩
      · rw [show guess - 1 + 52 = guess + 51 by ring]
        exact habove.le
      · rwa [show guess - 1 + 53 = guess + 52 by ring]
    · rename_i hge
      exact ⟨guess, rfl, not_lt.1 hge, hbelow⟩
  rw [heq]
  have hle : place ≤ e := by
    by_contra hlt
    have hmono : (2 : ℚ) ^ (e + 53) ≤ 2 ^ (place + 52) := zpow_le_zpow_right₀ htwo.le (by omega)
    linarith
  rcases hlow with rfl | hlow
  · exact max_eq_left hle
  · have hge : e ≤ place := by
      by_contra hlt
      have hmono : (2 : ℚ) ^ (place + 53) ≤ 2 ^ (e + 52) := zpow_le_zpow_right₀ htwo.le (by omega)
      linarith
    rw [le_antisymm hle hge]
    exact max_eq_right he

/-- The numbers below are half as far apart as those above. -/
def isNarrow (m : Nat) (q : Int) : Bool :=
  m = 2 ^ 52 && -1074 < q

/-- The quotients that are rounded to `m · 2 ^ q`, in quarters of the last place. -/
structure Rounds (m : Nat) (q : Int) (v : ℚ) : Prop where
  low : (4 * m - (if isNarrow m q then 1 else 2)) * (2 : ℚ) ^ (q - 2) < v ∨
    m % 2 = 0 ∧ (4 * m - (if isNarrow m q then 1 else 2)) * (2 : ℚ) ^ (q - 2) = v
  high : v < (4 * m + 2) * (2 : ℚ) ^ (q - 2) ∨ m % 2 = 0 ∧ v = (4 * m + 2) * (2 : ℚ) ^ (q - 2)

/-- The quotient, counted in units of a place, is at most one half away from a natural number. -/
theorem roundDiv_scaleDown {num den m : Nat} {e : Int} (hden : 0 < den)
    (hlow : (2 * m - 1) * (2 : ℚ) ^ (e - 1) < num / den ∨
      m % 2 = 0 ∧ (2 * m - 1) * (2 : ℚ) ^ (e - 1) = num / den)
    (hhigh : (num : ℚ) / den < (2 * m + 1) * 2 ^ (e - 1) ∨
      m % 2 = 0 ∧ (num : ℚ) / den = (2 * m + 1) * 2 ^ (e - 1)) :
    roundDiv (scaleDown num den e).1 (scaleDown num den e).2 = m := by
  have hd : 0 < (scaleDown num den e).2 := scaleDown_pos hden e
  have hdq : (0 : ℚ) < (scaleDown num den e).2 := by exact_mod_cast hd
  have hvalue : (num : ℚ) / den = (scaleDown num den e).1 / (scaleDown num den e).2 * 2 ^ e := by
    rw [scaleDown_div]
    field_simp
  have hhalf : (2 : ℚ) ^ e = 2 * 2 ^ (e - 1) := by
    rw [← zpow_one_add₀ (by norm_num)]
    congr 1
    ring
  have hunit : (0 : ℚ) < 2 ^ (e - 1) := by positivity
  rw [hvalue, hhalf] at hlow hhigh
  generalize (scaleDown num den e).1 = n at *
  generalize (scaleDown num den e).2 = d at *
  generalize (2 : ℚ) ^ (e - 1) = unit at *
  rw [show (n : ℚ) / d * (2 * unit) = 2 * n / d * unit by ring, mul_lt_mul_iff_left₀ hunit,
    mul_left_inj' hunit.ne', lt_div_iff₀ hdq, eq_div_iff hdq.ne'] at hlow
  rw [show (n : ℚ) / d * (2 * unit) = 2 * n / d * unit by ring, mul_lt_mul_iff_left₀ hunit,
    mul_left_inj' hunit.ne', div_lt_iff₀ hdq, div_eq_iff hdq.ne'] at hhigh
  refine roundDiv_eq hd (hlow.imp (fun hlt => ?_) (And.imp_right fun heq => ?_))
    (hhigh.imp (fun hlt => ?_) (And.imp_right fun heq => ?_))
  · have hnat : (2 * m * d : ℚ) < 2 * n + d := by linarith
    exact_mod_cast hnat
  · have hnat : (2 * m * d : ℚ) = 2 * n + d := by linarith
    exact_mod_cast hnat
  · have hnat : (2 * n : ℚ) < 2 * m * d + d := by linarith
    exact_mod_cast hnat
  · have hnat : (2 * n : ℚ) = 2 * m * d + d := by linarith
    exact_mod_cast hnat

section

variable {m : Nat} {q : Int} {v : ℚ}

theorem Rounds.lt_top (h : Rounds m q v) (hfits : Fits m q) : v < 2 ^ (q + 53) := by
  have hunit : (0 : ℚ) < 2 ^ (q - 2) := by positivity
  have hm : (m : ℚ) ≤ 2 ^ 53 - 1 := by
    have hle : m + 1 ≤ 2 ^ 53 := hfits.lt
    have hcast : (m : ℚ) + 1 ≤ 2 ^ 53 := by exact_mod_cast hle
    linarith
  have htop : (2 : ℚ) ^ (q + 53) = 2 ^ 55 * 2 ^ (q - 2) := two_zpow_eq 55 (by omega)
  have hle : v ≤ (4 * m + 2) * 2 ^ (q - 2) := by
    rcases h.high with hlt | ⟨-, heq⟩
    · exact hlt.le
    · exact heq.le
  calc v ≤ (4 * m + 2) * 2 ^ (q - 2) := hle
    _ < 2 ^ 55 * 2 ^ (q - 2) := by
      gcongr
      linarith
    _ = 2 ^ (q + 53) := htop.symm

/-- A half of the last place is two of its quarters. -/
theorem half_eq (q : Int) : (2 : ℚ) ^ (q - 1) = 2 * 2 ^ (q - 2) := by
  rw [two_zpow_eq 1 (show q - 1 = (1 : Nat) + (q - 2) by omega), pow_one]

/-- The interval reaches down by a half of the last place at most. -/
theorem Rounds.half_low (h : Rounds m q v) :
    (2 * m - 1) * (2 : ℚ) ^ (q - 1) < v ∨ m % 2 = 0 ∧ (2 * m - 1) * (2 : ℚ) ^ (q - 1) = v := by
  have hunit : (0 : ℚ) < 2 ^ (q - 2) := by positivity
  rw [half_eq, show (2 * m - 1) * (2 * (2 : ℚ) ^ (q - 2)) = (4 * m - 2) * 2 ^ (q - 2) by ring]
  have hlow := h.low
  split at hlow
  · left
    have hlt : (4 * m - 2 : ℚ) * 2 ^ (q - 2) < (4 * m - 1) * 2 ^ (q - 2) := by
      gcongr
      norm_num
    rcases hlow with hless | ⟨-, heq⟩
    · exact hlt.trans hless
    · exact hlt.trans_eq heq
  · exact hlow

theorem Rounds.half_high (h : Rounds m q v) :
    v < (2 * m + 1) * (2 : ℚ) ^ (q - 1) ∨ m % 2 = 0 ∧ v = (2 * m + 1) * (2 : ℚ) ^ (q - 1) := by
  rw [half_eq, show (2 * m + 1) * (2 * (2 : ℚ) ^ (q - 2)) = (4 * m + 2) * 2 ^ (q - 2) by ring]
  exact h.high

theorem Rounds.pos (h : Rounds m q v) (hm : 0 < m) : 0 < v := by
  have hunit : (0 : ℚ) < 2 ^ (q - 1) := by positivity
  have hone : (1 : ℚ) ≤ m := by exact_mod_cast hm
  have hlow : (0 : ℚ) < (2 * m - 1) * 2 ^ (q - 1) := mul_pos (by linarith) hunit
  rcases h.half_low with hlt | ⟨-, heq⟩
  · exact hlow.trans hlt
  · exact hlow.trans_eq heq

/-- A quotient with fewer bits than a number has is rounded to it only at a power of two. -/
theorem Rounds.eq_of_lt (h : Rounds m q v) (hfits : Fits m q) (hplace : q ≠ -1074)
    (hbelow : v < 2 ^ (q + 52)) : m = 2 ^ 52 := by
  have hunit : (0 : ℚ) < 2 ^ (q - 1) := by positivity
  rw [two_zpow_eq 53 (show q + 52 = (53 : Nat) + (q - 1) by omega)] at hbelow
  have hle : (2 * m - 1 : ℚ) * 2 ^ (q - 1) < 2 ^ 53 * 2 ^ (q - 1) := by
    rcases h.half_low with hlt | ⟨-, heq⟩
    · exact hlt.trans hbelow
    · exact heq.trans_lt hbelow
  have hhalves : (2 * m - 1 : ℚ) < 2 ^ 53 := lt_of_mul_lt_mul_right hle hunit.le
  have hnat : 2 * m < 2 ^ 53 + 1 := by
    have hcast : (2 * m : ℚ) < 2 ^ 53 + 1 := by linarith
    exact_mod_cast hcast
  have hnormal := hfits.normal.resolve_right hplace
  omega

/-- Below a power of two the interval reaches down by a quarter of the last place. -/
theorem Rounds.quarter_low (h : Rounds (2 ^ 52) q v) (hq : -1074 < q) :
    (2 ^ 54 - 1) * (2 : ℚ) ^ (q - 2) < v ∨ (2 ^ 54 - 1) * (2 : ℚ) ^ (q - 2) = v := by
  have hnarrow : isNarrow (2 ^ 52) q := by simp [isNarrow, hq]
  have hlow := h.low
  rw [if_pos hnarrow, show (4 * (2 ^ 52 : Nat) - 1 : ℚ) = 2 ^ 54 - 1 by norm_num] at hlow
  exact hlow.imp_right And.right

section

variable {num den : Nat}

/-- The last place below a power of two is one lower. -/
theorem lastPlace_below (hnum : 0 < num) (hden : 0 < den) (hq : -1074 < q)
    (hrounds : Rounds (2 ^ 52) q (num / den)) (hbelow : (num : ℚ) / den < 2 ^ (q + 52)) :
    lastPlace num den = q - 1 := by
  have hunit : (0 : ℚ) < 2 ^ (q - 2) := by positivity
  have hle : (2 : ℚ) ^ (q - 1 + 52) ≤ (2 ^ 54 - 1) * 2 ^ (q - 2) := by
    rw [two_zpow_eq 53 (show q - 1 + 52 = (53 : Nat) + (q - 2) by omega)]
    gcongr
    norm_num
  refine lastPlace_eq hnum hden (by omega) ?_ (.inr ?_)
  · rwa [show q - 1 + 53 = q + 52 by ring]
  · rcases hrounds.quarter_low hq with hlt | heq
    · exact hle.trans hlt.le
    · exact hle.trans heq.le

/-- In that place a quotient that is rounded to the power of two has all bits set, or more. -/
theorem roundDiv_below (hden : 0 < den) (hq : -1074 < q)
    (hrounds : Rounds (2 ^ 52) q (num / den)) (hbelow : (num : ℚ) / den < 2 ^ (q + 52)) :
    roundDiv (scaleDown num den (q - 1)).1 (scaleDown num den (q - 1)).2 = 2 ^ 53 := by
  have hplace : q - 1 - 1 = q - 2 := by ring
  have hstart : (2 * (2 ^ 53 : Nat) - 1 : ℚ) = 2 ^ 54 - 1 := by norm_num
  refine roundDiv_scaleDown hden ?_ (.inl ?_)
  · rw [hplace, hstart]
    exact (hrounds.quarter_low hq).imp_right fun heq => ⟨by decide, heq⟩
  · calc (num : ℚ) / den < 2 ^ (q + 52) := hbelow
      _ = 2 ^ 54 * 2 ^ (q - 2) := two_zpow_eq 54 (by omega)
      _ ≤ (2 * (2 ^ 53 : Nat) + 1) * 2 ^ (q - 1 - 1) := by
        rw [hplace]
        gcongr
        norm_num

/-- A quotient that lies around a number has its bits when it is rounded. -/
theorem magnitude_of_rounds (hnum : 0 < num) (hden : 0 < den) (hfits : Fits m q)
    (hrounds : Rounds m q (num / den)) :
    (lastPlace num den + 1074).toNat * power 2 52 +
      roundDiv (scaleDown num den (lastPlace num den)).1 (scaleDown num den (lastPlace num den)).2 =
      magnitudeOf m q := by
  by_cases hlow : q = -1074 ∨ (2 : ℚ) ^ (q + 52) ≤ num / den
  · rw [lastPlace_eq hnum hden hfits.place.1 (hrounds.lt_top hfits) hlow,
      roundDiv_scaleDown hden hrounds.half_low hrounds.half_high]
    rfl
  · -- below a power of two the place is one lower, and the carry makes up for it
    obtain ⟨hplace, hbelow⟩ := not_or.1 hlow
    rw [not_le] at hbelow
    have hlowest := hfits.place.1
    have hq : -1074 < q := by omega
    obtain rfl : m = 2 ^ 52 := hrounds.eq_of_lt hfits hplace hbelow
    rw [lastPlace_below hnum hden hq hrounds hbelow, roundDiv_below hden hq hrounds hbelow]
    show (q - 1 + 1074).toNat * 2 ^ 52 + 2 ^ 53 = (q + 1074).toNat * 2 ^ 52 + 2 ^ 52
    omega

/-- A quotient that lies around a number is rounded to it. -/
theorem ofRatio_of_rounds (hden : 0 < den) (hm : 0 < m) (hfits : Fits m q)
    (hrounds : Rounds m q (num / den)) (negative : Bool) :
    ofRatio negative num den = Float.ofBits (bitsOf negative m q).toUInt64 := by
  have hnum : 0 < num := by
    have hpos := hrounds.pos hm
    rw [div_pos_iff_of_pos_right (by exact_mod_cast hden)] at hpos
    exact_mod_cast hpos
  have hmax : magnitudeOf m q ≤ 2047 * power 2 52 := by
    have hlt := hfits.lt
    have hplace := hfits.place
    show (q + 1074).toNat * 2 ^ 52 + m ≤ 2047 * 2 ^ 52
    omega
  unfold ofRatio
  dsimp only
  rw [if_neg hnum.ne', magnitude_of_rounds hnum hden hfits hrounds, min_eq_right hmax]
  rfl

end

/-! ### Decimals -/

theorem two_pow_le_ten_pow (n : Nat) : (2 : ℚ) ^ (3 * n) ≤ 10 ^ n := by
  rw [pow_mul]
  gcongr
  norm_num

theorem Rounds.lowest_le (h : Rounds m q v) (hfits : Fits m q) (hm : 0 < m) :
    (2 : ℚ) ^ (-1075 : Int) ≤ v := by
  have hone : (1 : ℚ) ≤ m := by exact_mod_cast hm
  calc (2 : ℚ) ^ (-1075 : Int) ≤ 2 ^ (q - 1) := by
        have := hfits.place.1
        exact zpow_le_zpow_right₀ (by norm_num) (by omega)
    _ = 1 * 2 ^ (q - 1) := (one_mul _).symm
    _ ≤ (2 * m - 1) * 2 ^ (q - 1) := by
        gcongr
        linarith
    _ ≤ v := by
        rcases h.half_low with hlt | ⟨-, heq⟩
        · exact hlt.le
        · exact heq.le

section

variable {digits : Nat} {e : Int}

/-- A decimal with a large exponent lies beyond all finite numbers. -/
theorem le_of_large (hdigits : 0 < digits) (he : 400 < e) :
    (2 : ℚ) ^ (1024 : Int) ≤ digits * 10 ^ e := by
  have hone : (1 : ℚ) ≤ digits := by exact_mod_cast hdigits
  obtain ⟨n, rfl⟩ : ∃ n : Nat, e = n := ⟨e.toNat, by omega⟩
  calc (2 : ℚ) ^ (1024 : Int) ≤ 2 ^ ((3 * n : Nat) : Int) :=
        zpow_le_zpow_right₀ (by norm_num) (by omega)
    _ = 2 ^ (3 * n) := zpow_natCast _ _
    _ ≤ 10 ^ n := two_pow_le_ten_pow n
    _ = 1 * 10 ^ (n : Int) := by rw [one_mul, zpow_natCast]
    _ ≤ digits * 10 ^ (n : Int) := by gcongr

/-- A decimal with a low exponent lies below half of the lowest number. -/
theorem lt_of_small (hdigits : 0 < digits) (he : e < -(400 + Nat.log2 digits : Int)) :
    (digits : ℚ) * 10 ^ e < 2 ^ (-1075 : Int) := by
  obtain ⟨n, rfl⟩ : ∃ n : Nat, e = -(n : Int) := ⟨(-e).toNat, by omega⟩
  calc (digits : ℚ) * 10 ^ (-(n : Int))
      < 2 ^ ((Nat.log2 digits : Int) + 1) * 10 ^ (-(n : Int)) := by
        gcongr
        exact (log2_bounds hdigits).2
    _ ≤ 2 ^ ((Nat.log2 digits : Int) + 1) * 2 ^ (-((3 * n : Nat) : Int)) := by
        rw [zpow_neg, zpow_neg, zpow_natCast, zpow_natCast]
        gcongr
        exact two_pow_le_ten_pow n
    _ = 2 ^ ((Nat.log2 digits : Int) + 1 + -((3 * n : Nat) : Int)) :=
        (zpow_add₀ (by norm_num) _ _).symm
    _ ≤ 2 ^ (-1075 : Int) := zpow_le_zpow_right₀ (by norm_num) (by omega)

/-- A decimal that lies around a number is read as that number. -/
theorem ofDecimal_of_rounds (hm : 0 < m) (hfits : Fits m q) (hrounds : Rounds m q (digits * 10 ^ e))
    (negative : Bool) :
    ofDecimal negative digits e = Float.ofBits (bitsOf negative m q).toUInt64 := by
  have hpos := hrounds.pos hm
  have hdigits : 0 < digits := by
    rcases Nat.eq_zero_or_pos digits with rfl | hdigits
    · simp at hpos
    · exact hdigits
  unfold ofDecimal
  rw [if_neg hdigits.ne']
  split
  · rename_i hlarge
    have htop : (2 : ℚ) ^ (q + 53) ≤ 2 ^ (1024 : Int) := by
      have hplace := hfits.place.2
      exact zpow_le_zpow_right₀ (by norm_num) (by omega)
    exact absurd ((hrounds.lt_top hfits).trans_le htop) (not_lt.2 (le_of_large hdigits hlarge))
  · split
    · rename_i hsmall
      exact absurd (hrounds.lowest_le hfits hm) (not_le.2 (lt_of_small hdigits hsmall))
    · have hten : ((10 : Nat) : ℚ) = 10 := rfl
      refine ofRatio_of_rounds (power_pos (by decide) _) hm hfits ?_ negative
      rwa [Nat.cast_mul, mul_div_assoc, power_div_power (by decide), hten]

end

end

end Binary64

end CampaignRules
