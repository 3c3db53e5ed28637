import Mathlib.Tactic.Ring
import CampaignRules.Number.Binary64

/-! # The bits of finite numbers

A finite number is determined by its sign, its significand and its last place, and its bits tell
them. It is no NaN, and putting its bits together again gives the number itself. -/

namespace CampaignRules.Binary64

/-- A significand and a last place that some finite number has. -/
structure Fits (m : Nat) (q : Int) : Prop where
  lt : m < 2 ^ 53
  place : -1074 ≤ q ∧ q ≤ 971
  normal : 2 ^ 52 ≤ m ∨ q = -1074

/-- The bits of a finite number, but for its sign. -/
def magnitudeOf (m : Nat) (q : Int) : Nat :=
  (q + 1074).toNat * 2 ^ 52 + m

/-- The bits of a finite number. -/
def bitsOf (negative : Bool) (m : Nat) (q : Int) : Nat :=
  (if negative then 2 ^ 63 else 0) + magnitudeOf m q

theorem fits_of_ofFloat {x : Float} {negative : Bool} {m : Nat} {q : Int}
    (hx : ofFloat x = .finite negative m q) : Fits m q ∧ x.toBits.toNat = bitsOf negative m q := by
  have hbits : x.toBits.toNat < 2 ^ 64 := x.toBits.toNat_lt
  have h63 : power 2 63 = 2 ^ 63 := rfl
  have h52 : power 2 52 = 2 ^ 52 := rfl
  have h11 : power 2 11 = 2 ^ 11 := rfl
  unfold ofFloat at hx
  rw [h63, h52, h11] at hx
  dsimp only at hx
  generalize x.toBits.toNat = bits at *
  have hsign : bits = (if (decide (bits / 2 ^ 63 = 1)) = true then 2 ^ 63 else 0) +
      (bits / 2 ^ 52 % 2 ^ 11 * 2 ^ 52 + bits % 2 ^ 52) := by
    simp only [decide_eq_true_eq]
    split
    all_goals omega
  generalize decide (bits / 2 ^ 63 = 1) = sign at *
  have hfraction : bits % 2 ^ 52 < 2 ^ 52 := Nat.mod_lt _ (by decide)
  have hexponent : bits / 2 ^ 52 % 2 ^ 11 < 2 ^ 11 := Nat.mod_lt _ (by decide)
  generalize bits / 2 ^ 52 % 2 ^ 11 = exponent at *
  generalize bits % 2 ^ 52 = fraction at *
  split at hx
  · split at hx
    all_goals cases hx
  · split at hx
    · cases hx
      refine ⟨⟨by omega, by omega, .inr rfl⟩, ?_⟩
      rw [hsign, bitsOf, magnitudeOf]
      simp_all
    · cases hx
      refine ⟨⟨by omega, by omega, .inl (by omega)⟩, ?_⟩
      rw [hsign, bitsOf, magnitudeOf]
      omega

section

open Float.Model UnpackedFloat

theorem toNat_unpackExponent (bits : BitVec 64) :
    (@unpackExponent Format.binary64 bits).toNat = bits.toNat / power 2 52 % power 2 11 := by
  delta unpackExponent
  simp [Nat.shiftRight_eq_div_pow, power]

theorem toNat_unpackMantissa (bits : BitVec 64) :
    (@unpackMantissa Format.binary64 bits).toNat = bits.toNat % power 2 52 := by
  delta unpackMantissa
  simp [power]

/-- The exponent bits of NaN are all set. -/
theorem unpackExponent_of_isNaN {bits : BitVec 64}
    (hnan : (@UnpackedFloat.unpack Format.binary64 bits).isNaN) :
    @UnpackedFloat.unpackExponent Format.binary64 bits = -1#11 := by
  delta UnpackedFloat.unpack at hnan
  dsimp only at hnan
  by_contra hexponent
  rw [if_neg hexponent] at hnan
  by_cases hzero : @UnpackedFloat.unpackExponent Format.binary64 bits = 0#11
  · rw [if_pos hzero] at hnan
    by_cases hmantissa : @UnpackedFloat.unpackMantissa Format.binary64 bits = 0#52
    · rw [dif_pos hmantissa] at hnan
      cases hnan
    · rw [dif_neg hmantissa] at hnan
      cases hnan
  · rw [if_neg hzero] at hnan
    cases hnan

theorem exponent_eq_of_isNaN {x : Float} (hx : x.isNaN) :
    x.toBits.toNat / power 2 52 % power 2 11 = 2047 := by
  have hbits : (@UnpackedFloat.unpackExponent Format.binary64 x.toBits.toBitVec).toNat = 2047 :=
    congrArg BitVec.toNat (unpackExponent_of_isNaN hx)
  rw [← hbits, toNat_unpackExponent, UInt64.toNat_toBitVec]

theorem extract_append (bits : BitVec 64) :
    (BitVec.extractLsb 63 63 bits ++ BitVec.extractLsb 62 52 bits ++ BitVec.extractLsb 51 0 bits :
      BitVec 64) = bits := by
  refine BitVec.eq_of_getLsbD_eq fun i hi => ?_
  rw [BitVec.getLsbD_append, BitVec.getLsbD_append]
  simp only [BitVec.getLsbD_extractLsb]
  split
  · have hle : i < 52 := by omega
    simp [hle]
  · split
    · have hle : i - 52 < 11 := by omega
      have hplace : 52 + (i - 52) = i := by omega
      simp [hle, hplace]
    · obtain rfl : i = 63 := by omega
      simp

theorem packComponents_unpack (bits : BitVec 64) :
    @packComponents Format.binary64 (Sign.ofBitVec (@unpackSign Format.binary64 bits))
      (@unpackExponent Format.binary64 bits) (@unpackMantissa Format.binary64 bits) = bits := by
  have hsign : (Sign.ofBitVec (@unpackSign Format.binary64 bits)).toBitVec =
      @unpackSign Format.binary64 bits := by
    generalize @unpackSign Format.binary64 bits = sign
    revert sign
    decide
  unfold packComponents
  rw [hsign]
  exact extract_append bits

theorem pack_finite (sign : Sign) {m : Nat} (hpos : 0 < m) (hm : m < 2 ^ 53) {e : Int} {biased : Nat}
    (he : e + 1075 = biased) (hbiased : biased < 2047) :
    UnpackedFloat.pack Format.binary64 (.finite sign m e hpos) =
      @packComponents Format.binary64 sign
        (if 2 ^ 52 ≤ m then BitVec.ofNat 11 biased else 0#11) (BitVec.ofNat 52 m) := by
  have hlog : m.log2 + 1 = 53 ↔ 2 ^ 52 ≤ m := by
    have hle := Nat.le_log2 hpos.ne' (k := 52)
    have hlt := Nat.log2_lt hpos.ne' (k := 53)
    omega
  have hexponent : (e + (1023 : Nat) + (52 : Nat)).toNat = biased := by omega
  delta UnpackedFloat.pack
  show (if 2 ^ 11 ≤ (e + (1023 : Nat) + (52 : Nat)).toNat + 1 then _ else
    if m.log2 + 1 = 53 then _ else _) = _
  rw [hexponent, if_neg (by omega)]
  by_cases hnormal : 2 ^ 52 ≤ m
  · rw [if_pos (hlog.2 hnormal), if_pos hnormal]
    show @packComponents Format.binary64 sign
      (BitVec.ofNat 11 (e + (1023 : Nat) + (52 : Nat)).toNat) (BitVec.ofNat 52 m) = _
    rw [hexponent]
  · rw [if_neg (hlog.not.2 hnormal), if_neg hnormal]

/-- Bits that stand for no infinity and no NaN are not changed by unpacking them. -/
theorem pack_unpack (bits : BitVec 64) (hfinite : @unpackExponent Format.binary64 bits ≠ -1#11) :
    UnpackedFloat.pack Format.binary64 (UnpackedFloat.unpack Format.binary64 bits) = bits := by
  have hparts := packComponents_unpack bits
  have hmantissa : (@unpackMantissa Format.binary64 bits).toNat < 2 ^ 52 := BitVec.isLt _
  have hexponent : (@unpackExponent Format.binary64 bits).toNat < 2047 := by
    have hlt : (@unpackExponent Format.binary64 bits).toNat < 2 ^ 11 := BitVec.isLt _
    have hne : (@unpackExponent Format.binary64 bits).toNat ≠ 2047 := fun heq =>
      hfinite (BitVec.eq_of_toNat_eq heq)
    omega
  have hmantissaBits : BitVec.ofNat 52 (@unpackMantissa Format.binary64 bits).toNat =
      @unpackMantissa Format.binary64 bits :=
    BitVec.eq_of_toNat_eq (Nat.mod_eq_of_lt hmantissa)
  delta UnpackedFloat.unpack
  dsimp only
  rw [if_neg hfinite]
  by_cases hzero : @unpackExponent Format.binary64 bits = 0#11
  · rw [if_pos hzero]
    by_cases hempty : @unpackMantissa Format.binary64 bits = 0#52
    · rw [dif_pos hempty]
      rwa [hzero, hempty] at hparts
    · have hplace : ((@unpackExponent Format.binary64 bits).toNat : Int) -
          ((Format.binary64.exponentBias : Nat) + (52 : Nat)) + 1 + 1075 = (1 : Nat) := by
        rw [hzero]
        rfl
      rw [dif_neg hempty, pack_finite _ _ (by omega) hplace (by decide), if_neg (by omega)]
      rw [hzero] at hparts
      rw [hmantissaBits]
      exact hparts
  · have hnormal : (1#1 ++ @unpackMantissa Format.binary64 bits).toNat =
        2 ^ 52 + (@unpackMantissa Format.binary64 bits).toNat := by
      rw [BitVec.toNat_append]
      exact (Nat.shiftLeft_add_eq_or_of_lt hmantissa 1).symm
    have hplace : ((@unpackExponent Format.binary64 bits).toNat : Int) -
        ((Format.binary64.exponentBias : Nat) + (52 : Nat)) + 1075 =
          (@unpackExponent Format.binary64 bits).toNat :=
      Int.sub_add_cancel _ _
    have hlow : BitVec.ofNat 52 (1#1 ++ @unpackMantissa Format.binary64 bits).toNat =
        @unpackMantissa Format.binary64 bits := by
      rw [hnormal]
      refine BitVec.eq_of_toNat_eq ?_
      show (2 ^ 52 + (@unpackMantissa Format.binary64 bits).toNat) % 2 ^ 52 = _
      omega
    rw [if_neg hzero, pack_finite _ _ (by omega) hplace hexponent, if_pos (by omega), hlow,
      BitVec.ofNat_toNat, BitVec.setWidth_eq]
    exact hparts

/-- There is one NaN only, so that the bits of every float are not changed by unpacking them. -/
theorem pack_unpack_of_valid {bits : BitVec 64} (hvalid : Format.binary64.Valid bits) :
    UnpackedFloat.pack Format.binary64 (UnpackedFloat.unpack Format.binary64 bits) = bits := by
  by_cases hexponent : @unpackExponent Format.binary64 bits = -1#11
  · delta UnpackedFloat.unpack
    dsimp only
    rw [if_pos hexponent]
    by_cases hmantissa : @unpackMantissa Format.binary64 bits = 0#52
    · have hparts := packComponents_unpack bits
      rw [hexponent, hmantissa] at hparts
      rw [if_pos hmantissa]
      exact hparts
    · rw [if_neg hmantissa]
      exact (hvalid.eq_packedNaN hexponent hmantissa).symm
  · exact pack_unpack bits hexponent

theorem eq_of_toBits_eq {x y : Float} (h : x.toBits = y.toBits) : x = y := by
  obtain ⟨⟨a, ha⟩⟩ := x
  obtain ⟨⟨b, hb⟩⟩ := y
  obtain rfl : a = b := h
  rfl

/-- Putting the bits of a float together again gives the float. -/
theorem ofBits_toBits (x : Float) : Float.ofBits x.toBits = x :=
  eq_of_toBits_eq (UInt64.eq_of_toBitVec_eq (pack_unpack_of_valid x.toModel.valid))

end

theorem exponent_ne_of_finite {x : Float} {negative : Bool} {m : Nat} {q : Int}
    (hx : ofFloat x = .finite negative m q) :
    x.toBits.toNat / power 2 52 % power 2 11 ≠ 2047 := by
  intro hall
  rw [ofFloat, hall] at hx
  simp only [if_true] at hx
  split at hx
  all_goals cases hx

theorem isNaN_of_finite {x : Float} {negative : Bool} {m : Nat} {q : Int}
    (hx : ofFloat x = .finite negative m q) : x.isNaN = false := by
  by_contra hnan
  rw [Bool.not_eq_false] at hnan
  exact exponent_ne_of_finite hx (exponent_eq_of_isNaN hnan)

/-- A finite number is what its bits stand for. -/
theorem ofBits_of_ofFloat {x : Float} {negative : Bool} {m : Nat} {q : Int}
    (hx : ofFloat x = .finite negative m q) :
    Float.ofBits (bitsOf negative m q).toUInt64 = x := by
  have hbits : (bitsOf negative m q).toUInt64 = x.toBits := by
    rw [← (fits_of_ofFloat hx).2]
    exact UInt64.ofNat_toNat
  rw [hbits, ofBits_toBits]

/-! ### Bits of no NaN -/

section

open Float.Model UnpackedFloat

/-- The bits of an infinity are the largest, but for the sign, that stand for no NaN. -/
theorem unpackMantissa_of_le {bits : BitVec 64} (hle : bits.toNat % 2 ^ 63 ≤ 2047 * 2 ^ 52)
    (hexponent : @unpackExponent Format.binary64 bits = -1#11) :
    @unpackMantissa Format.binary64 bits = 0#52 := by
  have h52 : power 2 52 = 2 ^ 52 := rfl
  have h11 : power 2 11 = 2 ^ 11 := rfl
  have hall : (@unpackExponent Format.binary64 bits).toNat = 2047 := congrArg BitVec.toNat hexponent
  rw [toNat_unpackExponent, h52, h11] at hall
  refine BitVec.eq_of_toNat_eq ?_
  rw [toNat_unpackMantissa, h52]
  show _ = 0
  omega

theorem toBits_ofBits {bits : UInt64} (hle : bits.toNat % 2 ^ 63 ≤ 2047 * 2 ^ 52) :
    (Float.ofBits bits).toBits = bits := by
  refine UInt64.eq_of_toBitVec_eq (pack_unpack_of_valid ⟨fun hexponent hmantissa => ?_⟩)
  exact absurd (unpackMantissa_of_le hle hexponent) hmantissa

theorem isNaN_ofBits {bits : UInt64} (hle : bits.toNat % 2 ^ 63 ≤ 2047 * 2 ^ 52) :
    (Float.ofBits bits).isNaN = false := by
  have hunpack : (Float.ofBits bits).toModel.unpack =
      UnpackedFloat.unpack Format.binary64 bits.toBitVec :=
    congrArg (fun bits : UInt64 => UnpackedFloat.unpack Format.binary64 bits.toBitVec)
      (toBits_ofBits hle)
  show ((Float.ofBits bits).toModel.unpack).isNaN = false
  rw [hunpack]
  by_contra hnan
  rw [Bool.not_eq_false] at hnan
  have hexponent := unpackExponent_of_isNaN hnan
  have hmantissa := unpackMantissa_of_le hle hexponent
  delta UnpackedFloat.unpack at hnan
  dsimp only at hnan
  rw [if_pos hexponent, if_pos hmantissa] at hnan
  cases hnan

end

variable {m : Nat} {q : Int}

theorem toNat_toBits_ofBits (hfits : Fits m q) (negative : Bool) :
    (Float.ofBits (bitsOf negative m q).toUInt64).toBits.toNat = bitsOf negative m q := by
  have hlt := hfits.lt
  have hplace := hfits.place
  have hmagnitude : magnitudeOf m q ≤ 2047 * 2 ^ 52 := by
    rw [magnitudeOf]
    omega
  have hword : bitsOf negative m q < 2 ^ 64 := by
    rw [bitsOf]
    split <;> omega
  have hle : bitsOf negative m q % 2 ^ 63 ≤ 2047 * 2 ^ 52 := by
    rw [bitsOf]
    split <;> omega
  have hnat : (bitsOf negative m q).toUInt64.toNat = bitsOf negative m q :=
    UInt64.toNat_ofNat_of_lt hword
  rw [toBits_ofBits (by rwa [hnat]), hnat]

/-- The bits of a finite number stand for it. -/
theorem ofFloat_ofBits (hfits : Fits m q) (negative : Bool) :
    ofFloat (Float.ofBits (bitsOf negative m q).toUInt64) = .finite negative m q := by
  have hlt := hfits.lt
  have hplace := hfits.place
  have hsign : decide (bitsOf negative m q / 2 ^ 63 = 1) = negative := by
    have hdiv : bitsOf negative m q / 2 ^ 63 = if negative then 1 else 0 := by
      rw [bitsOf, magnitudeOf]
      split <;> omega
    rw [hdiv]
    cases negative <;> rfl
  have hexponent : bitsOf negative m q / 2 ^ 52 % 2 ^ 11 = (q + 1074).toNat + m / 2 ^ 52 := by
    rw [bitsOf, magnitudeOf]
    split <;> omega
  have hfraction : bitsOf negative m q % 2 ^ 52 = m % 2 ^ 52 := by
    rw [bitsOf, magnitudeOf]
    split <;> omega
  have h63 : power 2 63 = 2 ^ 63 := rfl
  have h52 : power 2 52 = 2 ^ 52 := rfl
  have h11 : power 2 11 = 2 ^ 11 := rfl
  unfold ofFloat
  dsimp only
  rw [toNat_toBits_ofBits hfits, h63, h52, h11, hexponent, hfraction, hsign, if_neg (by omega)]
  rcases Nat.lt_or_ge m (2 ^ 52) with hsmall | hnormal
  · obtain rfl : q = -1074 := hfits.normal.resolve_left (by omega)
    rw [if_pos (by omega), Nat.mod_eq_of_lt hsmall]
  · rw [if_neg (by omega)]
    congr 1 <;> omega

end CampaignRules.Binary64
