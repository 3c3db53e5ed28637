import CampaignRules.Bytes
import CampaignRules.Number.Binary64

/-! # The fewest digits that read back

The decimals that read back as a given number are those in the interval of reals that round to it.
The search tries grids of one digit, two digits and so on; on each grid only the two neighbours of
the number can be nearest to it. The first grid with a neighbour in the interval fixes how many
digits are written, the nearer neighbour which. -/

namespace CampaignRules

/-- `digits · 10 ^ exponent` -/
structure Decimal where
  digits : Nat
  exponent : Int

namespace Decimal

/-- Compares `a · 10 ^ i` with `n · 2 ^ j`. -/
def compareBinary (a : Nat) (i : Int) (n : Nat) (j : Int) : Ordering :=
  compare (a * power 10 i * power 2 (-j)) (n * power 2 j * power 10 (-i))

/-- The decimal lies among the reals that round to `m · 2 ^ q`. The interval reaches half way to
both neighbours, the lower of which is nearer below a power of two, and holds its ends if `m` is
even. -/
def readsBack (m : Nat) (q : Int) (d : Decimal) : Bool :=
  let narrow := m = power 2 52 && -1074 < q
  let low := compareBinary d.digits d.exponent (4 * m - if narrow then 1 else 2) (q - 2)
  let high := compareBinary d.digits d.exponent (4 * m + 2) (q - 2)
  let closed := m % 2 = 0
  (low = .gt || closed && low = .eq) && (high = .lt || closed && high = .eq)

/-- The number of digits before the point, the least `k` with `m · 2 ^ q < 10 ^ k`, sought from a
lower bound upwards. -/
def digitsBeforePoint (m : Nat) (q : Int) : Int :=
  let bits : Int := Nat.log2 m + q
  let guess : Int := bits * 30103 / 100000 - 1
  let rec go : Nat → Int → Int
    | 0, k => k
    | fuel + 1, k => if compareBinary 1 k m q = .gt then k else go fuel (k + 1)
  go 8 guess

/-- The neighbours of `m · 2 ^ q` among the multiples of `10 ^ e`, the nearer one first; a tie goes
to the even one. -/
def neighbours (m : Nat) (q e : Int) : List Decimal :=
  let num := m * power 2 q * power 10 (-e)
  let den := power 2 (-q) * power 10 e
  let below := num / den
  let nearest := Binary64.roundDiv num den
  if nearest = below then [⟨below, e⟩, ⟨below + 1, e⟩] else [⟨below + 1, e⟩, ⟨below, e⟩]

/-- Moves the trailing zeros of the digits into the exponent. -/
def strip : Nat → Decimal → Decimal
  | 0, d => d
  | fuel + 1, d =>
    if d.digits % 10 = 0 && d.digits ≠ 0 then strip fuel ⟨d.digits / 10, d.exponent + 1⟩ else d

/-- The shortest decimal that reads back as `m · 2 ^ q`, for positive `m`; of several the nearest.
Seventeen digits are enough. -/
def shortest (m : Nat) (q : Int) : Decimal :=
  let scale := digitsBeforePoint m q
  let candidates := (List.range 17).flatMap fun n : Nat => neighbours m q (scale - 1 - n)
  match candidates.find? (readsBack m q) with
  | some d => strip 20 d
  | none => ⟨m * power 2 q * power 5 (-q), min q 0⟩

end Decimal

/-- How a number is spelled: the positions of the point that are written out, and the least number
of digits of a written exponent. -/
structure NumberLayout where
  lowestPoint : Int
  highestPoint : Int
  exponentWidth : Nat

namespace NumberLayout

/-- Digits with a point, or with a point after the first digit and a signed exponent. A number
written out always has a digit on both sides of the point. -/
def render (layout : NumberLayout) (d : Decimal) : Bytes :=
  let digits := Bytes.decimal d.digits
  let count := digits.length
  let point : Int := count + d.exponent
  if count ≤ point && point ≤ layout.highestPoint then
    digits ++ Bytes.zeros (point - count).toNat ++ ".0"
  else if 0 < point && point ≤ layout.highestPoint then
    digits.take point.toNat ++ "." ++ digits.drop point.toNat
  else if layout.lowestPoint < point && point ≤ 0 then
    "0." ++ Bytes.zeros (-point).toNat ++ digits
  else
    let fraction : Bytes := if count = 1 then [] else "." ++ digits.drop 1
    let exponent := point - 1
    let sign : Bytes := if exponent < 0 then "-" else "+"
    digits.take 1 ++ fraction ++ "e" ++ sign ++
      Bytes.paddedDecimal layout.exponentWidth exponent.natAbs

end NumberLayout

end CampaignRules
