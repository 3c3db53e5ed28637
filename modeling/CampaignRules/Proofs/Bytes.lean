import Mathlib.Data.List.Sort
import Mathlib.Tactic.Ring
import CampaignRules.Bytes

/-! # Sets of names, and numerals

A sorted set is determined by its members. A numeral is not empty and has no byte but digits and a
sign, so nothing in it separates it into parts; and its value is the number it was written for. -/

namespace CampaignRules.Bytes

theorem eq_of_mem_iff {a b : List Bytes} (ha : a.Pairwise (· < ·)) (hb : b.Pairwise (· < ·))
    (hmem : ∀ x, x ∈ a ↔ x ∈ b) : a = b :=
  ha.eq_of_mem_iff hb hmem

theorem sortedSet_congr {a b : List Bytes} (hmem : ∀ x, x ∈ a ↔ x ∈ b) :
    sortedSet a = sortedSet b :=
  eq_of_mem_iff (sortedSet_pairwise a) (sortedSet_pairwise b) fun x => by simpa using hmem x

/-- What holds of each of the 256 bytes holds of all. -/
theorem forall_byte {p : UInt8 → Prop} (h : ∀ n : Fin 256, p (UInt8.ofFin n)) (b : UInt8) : p b :=
  h b.toFin

theorem cutAt_of_not_mem {sep : UInt8} {b : Bytes} (hsep : sep ∉ b) : cutAt sep b = (b, none) := by
  induction b with
  | nil => rfl
  | cons head rest ih =>
      rw [List.mem_cons, not_or] at hsep
      rw [cutAt, if_neg (Ne.symm hsep.1), ih hsep.2]

theorem decimal_ne_nil (n : Nat) : decimal n ≠ [] := by
  rw [decimal, ne_eq, List.map_eq_nil_iff]
  exact Nat.toDigits_ne_nil

theorem signedDecimal_ne_nil (n : Int) : signedDecimal n ≠ [] := by
  cases n with
  | ofNat n => exact decimal_ne_nil n
  | negSucc n => exact List.cons_ne_nil _ _

theorem isDigit_of_mem_decimal {n : Nat} {b : UInt8} (hb : b ∈ decimal n) : isDigit b := by
  obtain ⟨c, hc, rfl⟩ := List.mem_map.1 hb
  have hdigit : c.isDigit = true := Nat.isDigit_of_mem_toDigits (by decide) (by decide) hc
  have hmod : c.toUInt8.toNat = c.toNat % 256 := rfl
  have hlower : 48 ≤ c.toNat := (Char.isDigit_iff_toNat.1 hdigit).1
  have hupper : c.toNat ≤ 57 := (Char.isDigit_iff_toNat.1 hdigit).2
  rw [isDigit, Bool.and_eq_true, decide_eq_true_iff, decide_eq_true_iff, UInt8.le_iff_toNat_le,
    UInt8.le_iff_toNat_le, hmod]
  show 48 ≤ c.toNat % 256 ∧ c.toNat % 256 ≤ 57
  omega

theorem isDigit_of_mem_zeros {count : Nat} {b : UInt8} (hb : b ∈ zeros count) : isDigit b := by
  rw [List.eq_of_mem_replicate hb]
  rfl

theorem isDigit_of_mem_paddedDecimal {width n : Nat} {b : UInt8} (hb : b ∈ paddedDecimal width n) :
    isDigit b :=
  (List.mem_append.1 hb).elim isDigit_of_mem_zeros isDigit_of_mem_decimal

theorem paddedDecimal_ne_nil (width n : Nat) : paddedDecimal width n ≠ [] :=
  List.append_ne_nil_of_right_ne_nil _ (decimal_ne_nil n)

theorem dot_not_mem_decimal (n : Nat) : '.'.toUInt8 ∉ decimal n := fun h =>
  absurd (isDigit_of_mem_decimal h) (by decide)

theorem dot_not_mem_signedDecimal (n : Int) : '.'.toUInt8 ∉ signedDecimal n := by
  cases n with
  | ofNat n => exact dot_not_mem_decimal n
  | negSucc n =>
      rw [signedDecimal, List.mem_cons, not_or]
      exact ⟨by decide, dot_not_mem_decimal _⟩

theorem foldl_decimalValue (digits : Bytes) : ∀ start : Nat,
    digits.foldl (fun n b => 10 * n + digitValue b) start =
      start * 10 ^ digits.length + decimalValue digits := by
  induction digits with
  | nil => simp [decimalValue]
  | cons b rest ih =>
      intro start
      rw [decimalValue, List.foldl_cons, List.foldl_cons, ih, ih (10 * 0 + digitValue b),
        List.length_cons, pow_succ']
      ring

theorem decimalValue_append (front back : Bytes) :
    decimalValue (front ++ back) = decimalValue front * 10 ^ back.length + decimalValue back := by
  rw [decimalValue, List.foldl_append, foldl_decimalValue, ← decimalValue]

theorem decimalValue_zeros (count : Nat) : decimalValue (zeros count) = 0 := by
  induction count with
  | zero => rfl
  | succ count ih =>
      have hzero : decimalValue ['0'.toUInt8] = 0 := rfl
      rw [zeros, List.replicate_succ, ← List.singleton_append, decimalValue_append, ← zeros, ih,
        hzero, Nat.zero_mul]

theorem decimalValue_decimal (n : Nat) : decimalValue (decimal n) = n := by
  have hfold : ∀ (chars : List Char) (start : Nat), (∀ c ∈ chars, c.isDigit) →
      (chars.map Char.toUInt8).foldl (fun n b => 10 * n + digitValue b) start =
        Nat.ofDigitChars 10 chars start := by
    intro chars
    induction chars with
    | nil => exact fun _ _ => rfl
    | cons c rest ih =>
        intro start hdigits
        obtain ⟨hc, hrest⟩ := List.forall_mem_cons.1 hdigits
        have hupper : c.toNat ≤ 57 := (Char.isDigit_iff_toNat.1 hc).2
        have hmod : c.toUInt8.toNat = c.toNat % 256 := rfl
        have hvalue : digitValue c.toUInt8 = c.toNat - '0'.toNat := by
          rw [digitValue, hmod, Nat.mod_eq_of_lt (by omega)]
        rw [List.map_cons, List.foldl_cons, Nat.ofDigitChars_cons, ih _ hrest, hvalue]
  rw [decimalValue, decimal, hfold _ _ fun c hc => Nat.isDigit_of_mem_toDigits (by decide) (by decide) hc]
  exact Nat.ofDigitChars_toDigits (by decide) (by decide)

theorem decimalValue_paddedDecimal (width n : Nat) : decimalValue (paddedDecimal width n) = n := by
  rw [paddedDecimal, decimalValue_append, decimalValue_zeros, decimalValue_decimal, Nat.zero_mul,
    Nat.zero_add]

/-- A numeral has no leading zero. -/
theorem head?_decimal_ne {n : Nat} (hn : 0 < n) : (decimal n).head? ≠ some '0'.toUInt8 := by
  induction n using Nat.strong_induction_on with
  | _ n ih =>
      by_cases hsmall : n < 10
      · revert hn
        revert hsmall
        clear ih
        revert n
        decide
      · have hparts : decimal n = decimal (n / 10) ++ [(Nat.digitChar (n % 10)).toUInt8] := by
          rw [decimal, Nat.toDigits_of_base_le (by decide) (by omega), List.map_append]
          rfl
        rw [hparts, List.head?_append_of_ne_nil _ (decimal_ne_nil _)]
        exact ih (n / 10) (by omega) (by omega)

end CampaignRules.Bytes
