import CampaignRules.Json.Printer
import CampaignRules.Json.Token
import CampaignRules.Proofs.Bytes
import CampaignRules.Proofs.Number.Shortest

/-! # Numbers that are read back

A numeral is read part by part: its sign, the digits before the point, those behind it, and an
exponent. What is written for a number is such a numeral, and it is read as that number. -/

namespace CampaignRules.Json

/-- The text does not go on with a digit. -/
def EndsDigits (rest : Bytes) : Prop :=
  ∀ b ∈ rest.head?, Bytes.isDigit b = false

theorem takeWhile_append_of_endsDigits {digits rest : Bytes} (hdigits : ∀ b ∈ digits, Bytes.isDigit b)
    (hrest : EndsDigits rest) : (digits ++ rest).takeWhile Bytes.isDigit = digits := by
  rw [List.takeWhile_append_of_pos hdigits]
  cases rest with
  | nil => rw [List.takeWhile_nil, List.append_nil]
  | cons b more =>
      have hb : Bytes.isDigit b = false := hrest b rfl
      rw [List.takeWhile_cons_of_neg (by simp [hb]), List.append_nil]

theorem dropWhile_append_of_endsDigits {digits rest : Bytes} (hdigits : ∀ b ∈ digits, Bytes.isDigit b)
    (hrest : EndsDigits rest) : (digits ++ rest).dropWhile Bytes.isDigit = rest := by
  rw [List.dropWhile_append_of_pos hdigits]
  cases rest with
  | nil => rfl
  | cons b more =>
      have hb : Bytes.isDigit b = false := hrest b rfl
      rw [List.dropWhile_cons_of_neg (by simp [hb])]

/-- The parts of a numeral. There are digits in each part that is there, and the whole part has no
leading zero. -/
structure Spelling where
  negative : Bool
  whole : Bytes
  fraction : Bytes
  /-- its sign and its digits -/
  exponent : Option (Bool × Bytes)

namespace Spelling

def fractionText (n : Spelling) : Bytes :=
  if n.fraction.isEmpty then [] else '.'.toUInt8 :: n.fraction

def exponentText (n : Spelling) : Bytes :=
  match n.exponent with
  | none => []
  | some (negative, digits) =>
    'e'.toUInt8 :: (if negative then '-'.toUInt8 else '+'.toUInt8) :: digits

def body (n : Spelling) : Bytes :=
  n.whole ++ (n.fractionText ++ n.exponentText)

def text (n : Spelling) : Bytes :=
  if n.negative then '-'.toUInt8 :: n.body else n.body

/-- The exponent that is written, zero if there is none. -/
def writtenExponent (n : Spelling) : Int :=
  match n.exponent with
  | none => 0
  | some (negative, digits) =>
    if negative then -(Bytes.decimalValue digits : Int) else Bytes.decimalValue digits

theorem writtenExponent_none (negative : Bool) (whole fraction : Bytes) :
    writtenExponent ⟨negative, whole, fraction, none⟩ = 0 :=
  rfl

structure IsProper (n : Spelling) : Prop where
  whole_ne : n.whole ≠ []
  whole : ∀ b ∈ n.whole, Bytes.isDigit b
  leading : n.whole = ['0'.toUInt8] ∨ n.whole.head? ≠ some '0'.toUInt8
  fraction : ∀ b ∈ n.fraction, Bytes.isDigit b
  exponent : ∀ e ∈ n.exponent, e.2 ≠ [] ∧ ∀ b ∈ e.2, Bytes.isDigit b

variable {n : Spelling}

theorem endsDigits_exponentText (n : Spelling) : EndsDigits n.exponentText := by
  unfold exponentText
  split
  · exact fun b hb => by cases hb
  · intro b hb
    cases hb
    rfl

theorem endsDigits_fractionText (n : Spelling) : EndsDigits (n.fractionText ++ n.exponentText) := by
  unfold fractionText
  split
  · exact endsDigits_exponentText n
  · intro b hb
    cases hb
    rfl

end Spelling

open Token

theorem digits?_append {digits rest : Bytes} (hne : digits ≠ [])
    (hdigits : ∀ b ∈ digits, Bytes.isDigit b) (hrest : EndsDigits rest) :
    digits? (digits ++ rest) = some (digits, rest) := by
  rw [digits?, takeWhile_append_of_endsDigits hdigits hrest,
    dropWhile_append_of_endsDigits hdigits hrest]
  simp [hne]

namespace Spelling

variable {n : Spelling}

theorem wholeDigits?_body (hn : n.IsProper) :
    wholeDigits? n.body = some (n.whole, n.fractionText ++ n.exponentText) := by
  have hrest := endsDigits_fractionText n
  have hread := digits?_append hn.whole_ne hn.whole hrest
  rcases hn.leading with hzero | hleading
  · rw [body, hzero, List.singleton_append, wholeDigits?, if_pos rfl]
  · rw [body]
    obtain ⟨b, more, hwhole⟩ := List.exists_cons_of_ne_nil hn.whole_ne
    have hb : b ≠ '0'.toUInt8 := by
      rintro rfl
      exact hleading (by rw [hwhole]; rfl)
    rw [hwhole, List.cons_append, wholeDigits?, if_neg hb, ← List.cons_append, ← hwhole, hread]

theorem fractionDigits?_text (hn : n.IsProper) :
    fractionDigits? (n.fractionText ++ n.exponentText) = some (n.fraction, n.exponentText) := by
  unfold fractionText
  split
  · rename_i hempty
    rw [List.isEmpty_iff.1 hempty]
    unfold exponentText
    split
    · rfl
    · rfl
  · rename_i hne
    rw [List.isEmpty_iff] at hne
    rw [List.cons_append, fractionDigits?, if_pos rfl]
    exact digits?_append hne hn.fraction (endsDigits_exponentText n)

theorem exponent?_text (hn : n.IsProper) : exponent? n.exponentText =
    some (n.exponent.map fun _ => n.writtenExponent, []) := by
  unfold exponentText writtenExponent
  cases hexponent : n.exponent with
  | none => rfl
  | some e =>
      obtain ⟨negative, digits⟩ := e
      obtain ⟨hne, hdigits⟩ : digits ≠ [] ∧ ∀ b ∈ digits, Bytes.isDigit b :=
        hn.exponent (negative, digits) hexponent
      have hnil : EndsDigits [] := fun b hb => by cases hb
      have hread := digits?_append hne hdigits hnil
      rw [List.append_nil] at hread
      have hplus : '+'.toUInt8 ≠ '-'.toUInt8 := by decide
      cases negative with
      | true => simp [exponent?, hread]
      | false => simp [exponent?, hplus, hread]

/-- The number that the digits and the exponent stand for, rounded. -/
def rounded (n : Spelling) : Float :=
  Binary64.ofDecimal n.negative (Bytes.decimalValue (n.whole ++ n.fraction))
    (n.writtenExponent - n.fraction.length)

/-- What the numeral is: a whole number if it has no other part and fits into a word, and else the
rounded number. -/
def token (n : Spelling) : Token :=
  if n.fraction.isEmpty && n.exponent.isNone then
    ((whole? n.negative n.whole).map Token.scalar).getD (ofFloat n.rounded)
  else ofFloat n.rounded

/-- The body of a numeral starts with a digit. -/
theorem exists_body_eq (hn : n.IsProper) : ∃ b rest, n.body = b :: rest ∧ Bytes.isDigit b := by
  obtain ⟨b, more, hwhole⟩ := List.exists_cons_of_ne_nil hn.whole_ne
  refine ⟨b, more ++ (n.fractionText ++ n.exponentText), by rw [body, hwhole, List.cons_append], ?_⟩
  exact hn.whole b (hwhole ▸ List.mem_cons_self)

theorem text_eq (n : Spelling) :
    n.text = (if n.negative then Bytes.ofString "-" else Bytes.ofString "") ++ n.body := by
  unfold text
  split
  all_goals rfl

theorem getD_writtenExponent (n : Spelling) :
    (n.exponent.map fun _ => n.writtenExponent).getD 0 = n.writtenExponent := by
  unfold writtenExponent
  cases n.exponent <;> rfl

/-- A numeral is read to its end. -/
theorem number?_text (hn : n.IsProper) : number? n.text = some (n.token, []) := by
  have hbody := wholeDigits?_body hn
  unfold text number? token rounded
  -- without a sign, the first byte is the first digit and no sign either
  cases n.negative with
  | true =>
      simp only [if_true, Option.bind_eq_bind, hbody, Option.bind_some, fractionDigits?_text hn,
        exponent?_text hn, Option.isNone_map, getD_writtenExponent]
      split
      · cases whole? true n.whole <;> rfl
      · rfl
  | false =>
      obtain ⟨b, rest, heq, hdigit⟩ := exists_body_eq hn
      have hsign : b ≠ '-'.toUInt8 := by
        rintro rfl
        cases hdigit
      rw [heq] at hbody ⊢
      simp only [Bool.false_eq_true, if_false, if_neg hsign, Option.bind_eq_bind, hbody,
        Option.bind_some, fractionDigits?_text hn, exponent?_text hn, Option.isNone_map,
        getD_writtenExponent]
      split
      · cases whole? false n.whole <;> rfl
      · rfl

/-- A numeral with a point or an exponent that stands for a decimal. -/
structure Writes (n : Spelling) (d : Decimal) : Prop where
  proper : n.IsProper
  isFloat : (n.fraction.isEmpty && n.exponent.isNone) = false
  value : (Bytes.decimalValue (n.whole ++ n.fraction) : ℚ) *
    10 ^ (n.writtenExponent - n.fraction.length) = d.value

end Spelling

section

variable {layout : NumberLayout} {d : Decimal} {negative : Bool}

/-- The digits stand before the point, with a zero behind it. -/
theorem writes_whole (hd : 0 < d.digits) (he : 0 ≤ d.exponent) :
    Spelling.Writes ⟨negative, Bytes.decimal d.digits ++ Bytes.zeros d.exponent.toNat,
      ['0'.toUInt8], none⟩ d where
  proper :=
    { whole_ne := List.append_ne_nil_of_left_ne_nil (Bytes.decimal_ne_nil _) _
      whole := fun b hb => (List.mem_append.1 hb).elim Bytes.isDigit_of_mem_decimal
        Bytes.isDigit_of_mem_zeros
      leading := .inr (by
        rw [List.head?_append_of_ne_nil _ (Bytes.decimal_ne_nil _)]
        exact Bytes.head?_decimal_ne hd)
      fraction := by simp; rfl
      exponent := fun _ he => by cases he }
  isFloat := rfl
  value := by
    have hexponent : (10 : ℚ) ^ d.exponent = 10 ^ d.exponent.toNat := by
      rw [← zpow_natCast, Int.toNat_of_nonneg he]
    have hzero : Bytes.decimalValue ['0'.toUInt8] = 0 := rfl
    rw [Bytes.decimalValue_append, Bytes.decimalValue_append, Bytes.decimalValue_decimal,
      Bytes.decimalValue_zeros, hzero, Decimal.value, hexponent]
    simp [Spelling.writtenExponent, Bytes.zeros]

/-- If no digit is added behind those of the decimal, they stand for it in the right place. -/
theorem writes_of_digits {n : Spelling} (hproper : n.IsProper)
    (hfloat : (n.fraction.isEmpty && n.exponent.isNone) = false)
    (hdigits : Bytes.decimalValue (n.whole ++ n.fraction) = d.digits)
    (hplace : n.writtenExponent - n.fraction.length = d.exponent) : n.Writes d where
  proper := hproper
  isFloat := hfloat
  value := by rw [hdigits, hplace, Decimal.value]

/-- The point stands between the digits. -/
theorem writes_between (hd : 0 < d.digits) (point : Nat) (hpoint : 0 < point)
    (hcount : point < (Bytes.decimal d.digits).length)
    (heq : (point : Int) = (Bytes.decimal d.digits).length + d.exponent) :
    Spelling.Writes ⟨negative, (Bytes.decimal d.digits).take point,
      (Bytes.decimal d.digits).drop point, none⟩ d := by
  refine writes_of_digits ?_ ?_ ?_ ?_
  · refine ⟨?_, fun b hb => Bytes.isDigit_of_mem_decimal (List.mem_of_mem_take hb), .inr ?_,
      fun b hb => Bytes.isDigit_of_mem_decimal (List.mem_of_mem_drop hb), fun _ he => by cases he⟩
    · simp [hpoint.ne', Bytes.decimal_ne_nil]
    · rw [List.head?_take, if_neg hpoint.ne']
      exact Bytes.head?_decimal_ne hd
  · simp [hcount]
  · rw [List.take_append_drop, Bytes.decimalValue_decimal]
  · rw [Spelling.writtenExponent_none, List.length_drop]
    omega

/-- The digits stand behind the point, after some zeros. -/
theorem writes_below (zeros : Nat)
    (heq : -(zeros : Int) = (Bytes.decimal d.digits).length + d.exponent) :
    Spelling.Writes ⟨negative, ['0'.toUInt8], Bytes.zeros zeros ++ Bytes.decimal d.digits, none⟩ d := by
  refine writes_of_digits ?_ ?_ ?_ ?_
  · refine ⟨List.cons_ne_nil _ _, by simp; rfl, .inl rfl, fun b hb => ?_, fun _ he => by cases he⟩
    exact (List.mem_append.1 hb).elim Bytes.isDigit_of_mem_zeros Bytes.isDigit_of_mem_decimal
  · simp [Bytes.decimal_ne_nil]
  · have hzero : Bytes.decimalValue ['0'.toUInt8] = 0 := rfl
    rw [Bytes.decimalValue_append, Bytes.decimalValue_append, Bytes.decimalValue_decimal,
      Bytes.decimalValue_zeros, hzero, Nat.zero_mul, Nat.zero_mul, Nat.zero_add, Nat.zero_add]
  · rw [Spelling.writtenExponent_none, List.length_append, Bytes.zeros, List.length_replicate]
    omega

/-- The point stands behind the first digit, and an exponent tells where it belongs. -/
theorem writes_scientific (hd : 0 < d.digits) (width : Nat) (exponent : Int)
    (heq : exponent = (Bytes.decimal d.digits).length + d.exponent - 1) :
    Spelling.Writes ⟨negative, (Bytes.decimal d.digits).take 1, (Bytes.decimal d.digits).drop 1,
      some (exponent < 0, Bytes.paddedDecimal width exponent.natAbs)⟩ d := by
  have hpositive : 0 < (Bytes.decimal d.digits).length :=
    List.length_pos_iff.2 (Bytes.decimal_ne_nil _)
  refine writes_of_digits ?_ ?_ ?_ ?_
  · refine ⟨?_, fun b hb => Bytes.isDigit_of_mem_decimal (List.mem_of_mem_take hb), .inr ?_,
      fun b hb => Bytes.isDigit_of_mem_decimal (List.mem_of_mem_drop hb), ?_⟩
    · simp [Bytes.decimal_ne_nil]
    · rw [List.head?_take, if_neg one_ne_zero]
      exact Bytes.head?_decimal_ne hd
    · rintro _ ⟨⟩
      exact ⟨Bytes.paddedDecimal_ne_nil _ _, fun _ => Bytes.isDigit_of_mem_paddedDecimal⟩
  · simp
  · rw [List.take_append_drop, Bytes.decimalValue_decimal]
  · rw [Spelling.writtenExponent, List.length_drop]
    simp only [Bytes.decimalValue_paddedDecimal, decide_eq_true_eq]
    split
    all_goals omega

/-- However a decimal is laid out, it is a numeral that stands for it. -/
theorem exists_writes (layout : NumberLayout) (hd : 0 < d.digits) (negative : Bool) :
    ∃ n : Spelling, n.Writes d ∧ n.negative = negative ∧ n.body = layout.render d := by
  have hpoint : Bytes.ofString "." = ['.'.toUInt8] := rfl
  unfold NumberLayout.render
  simp only [Bool.and_eq_true, decide_eq_true_eq, hpoint]
  generalize hcount : (Bytes.decimal d.digits).length = count
  -- the point behind the digits, between them, in front of them, or told by an exponent
  split
  · have hzeros : (count + d.exponent - count).toNat = d.exponent.toNat := by omega
    rw [hzeros]
    exact ⟨_, writes_whole hd (by omega), rfl, rfl⟩
  split
  · rename_i hfew hwithin
    obtain ⟨point, hfits⟩ : ∃ point : Nat, (point : Int) = count + d.exponent :=
      ⟨(count + d.exponent).toNat, by omega⟩
    rw [← hfits, Int.toNat_natCast]
    refine ⟨_, writes_between hd point (by omega) (by omega) (by omega), rfl, ?_⟩
    have hne : (Bytes.decimal d.digits).drop point ≠ [] := by simp; omega
    simp [Spelling.body, Spelling.fractionText, Spelling.exponentText, hne]
  split
  · rename_i hbelow
    obtain ⟨zeros, hfits⟩ : ∃ zeros : Nat, -(zeros : Int) = count + d.exponent :=
      ⟨(-(count + d.exponent)).toNat, by omega⟩
    rw [← hfits, neg_neg, Int.toNat_natCast]
    refine ⟨_, writes_below zeros (by omega), rfl, ?_⟩
    simp [Spelling.body, Spelling.fractionText, Spelling.exponentText, Bytes.decimal_ne_nil]
    rfl
  · refine ⟨_, writes_scientific hd layout.exponentWidth (count + d.exponent - 1) (by rw [hcount]),
      rfl, ?_⟩
    have hempty : ((Bytes.decimal d.digits).drop 1).isEmpty = decide (count = 1) := by
      have hpositive := List.length_pos_iff.2 (Bytes.decimal_ne_nil d.digits)
      rw [Bool.eq_iff_iff, List.isEmpty_iff, List.drop_eq_nil_iff, decide_eq_true_iff]
      omega
    simp only [Spelling.body, Spelling.fractionText, Spelling.exponentText, hempty,
      decide_eq_true_eq, List.append_assoc]
    congr 2
    split
    all_goals rfl

end

/-! ### Words -/

namespace Token

/-- The byte neither ends a word nor stands for itself. -/
def isPlain (b : UInt8) : Bool :=
  b ≠ 0 && !isBlank b && b ≠ '"'.toUInt8 && (punctuation? b).isNone

/-- A word that is read as one scalar. -/
structure Spells (word : Bytes) (v : Json) : Prop where
  ne_nil : word ≠ []
  plain : ∀ b ∈ word, isPlain b
  token : ofWord word = [.scalar v]

/-- A name starts with a letter of its own. -/
theorem named?_eq_none {b : UInt8} {rest : Bytes}
    (hb : b ∉ ['n'.toUInt8, 't'.toUInt8, 'f'.toUInt8]) : named? (b :: rest) = none := by
  simp only [List.mem_cons, List.not_mem_nil, or_false, not_or] at hb
  rw [named?, List.findSome?_eq_none_iff]
  have hnull : Bytes.ofString "null" = 'n'.toUInt8 :: ['u'.toUInt8, 'l'.toUInt8, 'l'.toUInt8] := rfl
  have htrue : Bytes.ofString "true" = 't'.toUInt8 :: ['r'.toUInt8, 'u'.toUInt8, 'e'.toUInt8] := rfl
  have hfalse : Bytes.ofString "false" =
      'f'.toUInt8 :: ['a'.toUInt8, 'l'.toUInt8, 's'.toUInt8, 'e'.toUInt8] := rfl
  simp [hnull, htrue, hfalse, Ne.symm hb.1, Ne.symm hb.2.1, Ne.symm hb.2.2]

end Token

theorem isPlain_of_isDigit : ∀ b : UInt8, Bytes.isDigit b → isPlain b :=
  Bytes.forall_byte (by decide +kernel)

theorem Spelling.isPlain_of_mem_text {n : Spelling} (hn : n.IsProper) {b : UInt8} (hb : b ∈ n.text) :
    isPlain b := by
  have hbody : ∀ b ∈ n.body, isPlain b := by
    simp only [body, List.mem_append]
    rintro b (hb | hb | hb)
    · exact isPlain_of_isDigit b (hn.whole b hb)
    · unfold fractionText at hb
      split at hb
      · cases hb
      · rcases List.mem_cons.1 hb with rfl | hb
        · rfl
        · exact isPlain_of_isDigit b (hn.fraction b hb)
    · unfold exponentText at hb
      split at hb
      · cases hb
      · rename_i hexponent
        rcases List.mem_cons.1 hb with rfl | hb
        · rfl
        · rcases List.mem_cons.1 hb with rfl | hb
          · split
            all_goals rfl
          · exact isPlain_of_isDigit b ((hn.exponent _ hexponent).2 b hb)
  unfold text at hb
  split at hb
  · rcases List.mem_cons.1 hb with rfl | hb
    · rfl
    · exact hbody b hb
  · exact hbody b hb

theorem Spelling.named?_text {n : Spelling} (hn : n.IsProper) : named? n.text = none := by
  unfold text
  split
  · exact named?_eq_none (by decide)
  · obtain ⟨b, rest, heq, hdigit⟩ := exists_body_eq hn
    rw [heq]
    refine named?_eq_none fun hletter => ?_
    simp only [List.mem_cons, List.not_mem_nil, or_false] at hletter
    rcases hletter with rfl | rfl | rfl
    all_goals cases hdigit

/-- What a proper numeral stands for is read from it. -/
theorem Spelling.spells {n : Spelling} (hn : n.IsProper) {v : Json} (hv : n.token = .scalar v) :
    Spells n.text v where
  ne_nil := by
    obtain ⟨b, rest, heq, -⟩ := exists_body_eq hn
    rw [text, heq]
    split
    all_goals exact List.cons_ne_nil _ _
  plain b hb := isPlain_of_mem_text hn hb
  token := by
    have hscalar : scalar? n.text = some (.scalar v, []) := by
      rw [scalar?, named?_text hn, number?_text hn, hv]
    rw [ofWord, hscalar]

theorem isProper_decimal (n : Nat) (negative : Bool) :
    Spelling.IsProper ⟨negative, Bytes.decimal n, [], none⟩ where
  whole_ne := Bytes.decimal_ne_nil n
  whole _ := Bytes.isDigit_of_mem_decimal
  leading := by
    rcases Nat.eq_zero_or_pos n with rfl | hn
    · exact .inl rfl
    · exact .inr (Bytes.head?_decimal_ne hn)
  fraction := List.forall_mem_nil _
  exponent _ h := by cases h

/-- A whole number is read from its numeral if it fits into a word. -/
theorem spells_whole {n : Nat} {negative : Bool} {v : Json}
    (hv : whole? negative (Bytes.decimal n) = some v) :
    Spells (if negative then '-'.toUInt8 :: Bytes.decimal n else Bytes.decimal n) v := by
  have htoken : Spelling.token ⟨negative, Bytes.decimal n, [], none⟩ = .scalar v := by
    simp [Spelling.token, hv]
  have hspells := Spelling.spells (isProper_decimal n negative) htoken
  rw [Spelling.text, Spelling.body] at hspells
  simpa [Spelling.fractionText, Spelling.exponentText] using hspells

theorem spells_decimal {n : Nat} (hn : n < 2 ^ 64) : Spells (Bytes.decimal n) (.unsigned n.toUInt64) := by
  have h64 : power 2 64 = 2 ^ 64 := rfl
  have hv : whole? false (Bytes.decimal n) = some (.unsigned n.toUInt64) := by
    simp only [whole?, Bytes.decimalValue_decimal, h64, Bool.false_eq_true, if_false, if_pos hn]
  exact spells_whole hv

theorem spells_negative {n : Nat} (hn : n ≤ 2 ^ 63) :
    Spells ('-'.toUInt8 :: Bytes.decimal n) (.signed (Int64.ofInt (-n))) := by
  have h63 : power 2 63 = 2 ^ 63 := rfl
  have hv : whole? true (Bytes.decimal n) = some (.signed (Int64.ofInt (-n))) := by
    simp only [whole?, Bytes.decimalValue_decimal, h63, if_true, if_pos hn]
  exact spells_whole hv

/-- A numeral that a finite number is rounded from is read as that number. -/
theorem spells_float {n : Spelling} {x : Float} {negative : Bool} {m : Nat} {q : Int}
    (hn : n.IsProper) (hfloat : (n.fraction.isEmpty && n.exponent.isNone) = false)
    (hrounded : n.rounded = x) (hx : Binary64.ofFloat x = .finite negative m q) :
    Spells n.text (.float x) := by
  refine Spelling.spells hn ?_
  rw [Spelling.token, hfloat, if_neg Bool.false_ne_true, hrounded, Token.ofFloat, hx]

/-- Zero has no shortest decimal and is spelled on its own. -/
theorem spells_zero {x : Float} {negative : Bool} {q : Int}
    (hx : Binary64.ofFloat x = .finite negative 0 q) :
    Spells ((if negative then Bytes.ofString "-" else Bytes.ofString "") ++ Bytes.ofString "0.0")
      (.float x) := by
  obtain ⟨hfits, -⟩ := Binary64.fits_of_ofFloat hx
  have hplace : q = -1074 := hfits.normal.resolve_left (by decide)
  let zero : Spelling := ⟨negative, ['0'.toUInt8], ['0'.toUInt8], none⟩
  have hproper : zero.IsProper :=
    ⟨List.cons_ne_nil _ _, by simp [zero]; rfl, .inl rfl, by simp [zero]; rfl, fun _ h => by cases h⟩
  have hrounded : zero.rounded = x := by
    rw [← Binary64.ofBits_of_ofFloat hx, hplace]
    cases negative <;> rfl
  have hspells := spells_float hproper rfl hrounded hx
  rwa [Spelling.text_eq] at hspells

/-- A finite number is read from what is written for it. -/
theorem spells_renderFloat {x : Float} {negative : Bool} {m : Nat} {q : Int}
    (hx : Binary64.ofFloat x = .finite negative m q) : Spells (renderFloat x) (.float x) := by
  rw [renderFloat, hx]
  dsimp only
  rcases Nat.eq_zero_or_pos m with rfl | hm
  · rw [if_pos rfl]
    exact spells_zero hx
  · rw [if_neg hm.ne']
    obtain ⟨hfits, -⟩ := Binary64.fits_of_ofFloat hx
    have hrounds : Binary64.Rounds m q (Decimal.shortest m q).value := Decimal.rounds_shortest hm
    have hdigits : 0 < (Decimal.shortest m q).digits := by
      have hpos := hrounds.pos hm
      rw [Decimal.value] at hpos
      exact_mod_cast (pos_iff_pos_of_mul_pos hpos).2 (by positivity)
    obtain ⟨n, hwrites, rfl, hbody⟩ := exists_writes numberLayout hdigits negative
    rw [← hwrites.value] at hrounds
    have hrounded : n.rounded = x := by
      rw [Spelling.rounded, Binary64.ofDecimal_of_rounds hm hfits hrounds,
        Binary64.ofBits_of_ofFloat hx]
    rw [← hbody, ← Spelling.text_eq]
    exact spells_float hwrites.proper hwrites.isFloat hrounded hx

end CampaignRules.Json
