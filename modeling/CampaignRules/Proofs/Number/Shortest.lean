import CampaignRules.Number.Shortest
import CampaignRules.Proofs.Number.Rounding

/-! # The shortest decimal reads back

What the search finds lies in the interval of a number, and if it found nothing, the exact decimal of
the number would be taken. So whatever is written for a number is rounded to it again. -/

namespace CampaignRules.Decimal

open Binary64

/-- The quotient that a decimal is. -/
def value (d : Decimal) : ℚ :=
  d.digits * 10 ^ d.exponent

theorem power_eq (base : Nat) (hbase : 0 < base) (exponent : Int) :
    (power base exponent : ℚ) = (base : ℚ) ^ exponent * power base (-exponent) := by
  rw [← power_div_power hbase.ne']
  exact (div_mul_cancel₀ _ (by exact_mod_cast (power_pos hbase (-exponent)).ne')).symm

/-- Both sides of a comparison, with a common factor for the powers on the other side. -/
theorem exists_scale (i j : Int) : ∃ scale : ℚ, 0 < scale ∧ ∀ a n : Nat,
    ((a * power 10 i * power 2 (-j) : Nat) : ℚ) = a * 10 ^ i * scale ∧
      ((n * power 2 j * power 10 (-i) : Nat) : ℚ) = n * 2 ^ j * scale := by
  have hten : (0 : ℚ) < power 10 (-i) := by exact_mod_cast power_pos (by decide) _
  have htwo : (0 : ℚ) < power 2 (-j) := by exact_mod_cast power_pos (by decide) _
  refine ⟨power 10 (-i) * power 2 (-j), mul_pos hten htwo, fun a n => ⟨?_, ?_⟩⟩
  · push_cast
    rw [power_eq 10 (by decide) i]
    push_cast
    ring
  · push_cast
    rw [power_eq 2 (by decide) j]
    push_cast
    ring

variable {a n : Nat} {i j : Int}

theorem compareBinary_eq_gt : compareBinary a i n j = .gt ↔ (n : ℚ) * 2 ^ j < a * 10 ^ i := by
  obtain ⟨scale, hscale, heq⟩ := exists_scale i j
  rw [compareBinary, Nat.compare_eq_gt, ← Nat.cast_lt (α := ℚ), (heq a n).1, (heq a n).2,
    mul_lt_mul_iff_left₀ hscale]

theorem compareBinary_eq_lt : compareBinary a i n j = .lt ↔ (a : ℚ) * 10 ^ i < n * 2 ^ j := by
  obtain ⟨scale, hscale, heq⟩ := exists_scale i j
  rw [compareBinary, Nat.compare_eq_lt, ← Nat.cast_lt (α := ℚ), (heq a n).1, (heq a n).2,
    mul_lt_mul_iff_left₀ hscale]

theorem compareBinary_eq_eq : compareBinary a i n j = .eq ↔ (a : ℚ) * 10 ^ i = n * 2 ^ j := by
  obtain ⟨scale, hscale, heq⟩ := exists_scale i j
  rw [compareBinary, Nat.compare_eq_eq, ← Nat.cast_inj (R := ℚ), (heq a n).1, (heq a n).2,
    mul_left_inj' hscale.ne']

variable {m : Nat} {q : Int}

theorem rounds_of_readsBack {d : Decimal} (hm : 0 < m) (hd : readsBack m q d) :
    Rounds m q d.value := by
  have hnarrow : (decide (m = power 2 52) && decide (-1074 < q)) = isNarrow m q := rfl
  have hstart : ((4 * m - (if isNarrow m q then 1 else 2) : Nat) : ℚ) =
      4 * m - (if isNarrow m q then 1 else 2) := by
    split
    · rw [Nat.cast_sub (by omega)]
      push_cast
      rfl
    · rw [Nat.cast_sub (by omega)]
      push_cast
      rfl
  have hend : ((4 * m + 2 : Nat) : ℚ) = 4 * m + 2 := by
    push_cast
    rfl
  unfold readsBack at hd
  rw [hnarrow] at hd
  simp only [Bool.and_eq_true, Bool.or_eq_true, decide_eq_true_eq, compareBinary_eq_gt,
    compareBinary_eq_lt, compareBinary_eq_eq, hstart, hend] at hd
  exact ⟨hd.1.imp_right fun ⟨heven, heq⟩ => ⟨heven, heq.symm⟩, hd.2⟩

/-- A number lies in its own interval. -/
theorem rounds_self (m : Nat) (q : Int) : Rounds m q (m * 2 ^ q) := by
  have hunit : (0 : ℚ) < 2 ^ (q - 2) := by positivity
  have hquarters : (m : ℚ) * 2 ^ q = 4 * m * 2 ^ (q - 2) := by
    rw [two_zpow_eq 2 (show q = (2 : Nat) + (q - 2) by omega)]
    ring
  rw [hquarters]
  refine ⟨.inl ?_, .inl ?_⟩
  · gcongr
    split
    all_goals norm_num
  · gcongr
    norm_num

@[simp] theorem value_strip (fuel : Nat) : ∀ d : Decimal, (strip fuel d).value = d.value := by
  induction fuel with
  | zero => exact fun _ => rfl
  | succ fuel ih =>
      intro d
      rw [strip]
      split
      · rename_i hzero
        rw [ih]
        simp only [Bool.and_eq_true, decide_eq_true_eq] at hzero
        have hten : (d.digits : ℚ) = (d.digits / 10 : Nat) * 10 := by
          exact_mod_cast (Nat.div_mul_cancel (Nat.dvd_of_mod_eq_zero hzero.1)).symm
        rw [value, value, hten, zpow_add_one₀ (by norm_num)]
        ring
      · rfl

/-- What a number is in base ten, without rounding. -/
theorem value_exact (m : Nat) (q : Int) :
    value ⟨m * power 2 q * power 5 (-q), min q 0⟩ = m * 2 ^ q := by
  rcases Int.le_total q 0 with hq | hq
  · obtain ⟨n, rfl⟩ : ∃ n : Nat, q = -(n : Int) := ⟨(-q).toNat, by omega⟩
    have htwo : power 2 (-(n : Int)) = 1 := by simp [power]
    rw [value, min_eq_left hq, htwo, neg_neg, power_natCast, mul_one]
    push_cast
    rw [zpow_neg, zpow_neg, zpow_natCast, zpow_natCast, show (10 : ℚ) = 5 * 2 by norm_num, mul_pow]
    field_simp
  · obtain ⟨n, rfl⟩ : ∃ n : Nat, q = n := ⟨q.toNat, by omega⟩
    have hfive : power 5 (-(n : Int)) = 1 := by simp [power]
    rw [value, min_eq_right hq, hfive, power_natCast, mul_one]
    push_cast
    rw [mul_one, zpow_natCast]

/-- The decimal that is written for a number is rounded to it. -/
theorem rounds_shortest (hm : 0 < m) : Rounds m q (shortest m q).value := by
  unfold shortest
  dsimp only
  split
  · rename_i d hfound
    rw [value_strip]
    exact rounds_of_readsBack hm (List.find?_some hfound)
  · rw [value_exact]
    exact rounds_self m q

end CampaignRules.Decimal
