/-! # Exact values of binary64 numbers

A finite number is a natural significand times a power of two. Here numbers are taken apart into
that form, and put together from exact quotients by rounding to the nearest number, ties to the
even significand. Truncation, the test for whole numbers and the remainder work on the exact
form, in integer arithmetic. Exact numbers are quotients of natural numbers with powers on both
sides; a power with a negative exponent stands on the other side of the quotient. -/

namespace CampaignRules

/-- The power of a natural number; one for a negative exponent, which counts on the other side. -/
def power (base : Nat) (exponent : Int) : Nat :=
  Nat.pow base exponent.toNat

/-- What the 64 bits of a number stand for; a finite one is `± m · 2 ^ q`. -/
inductive Binary64 where
  | nan
  | infinity (negative : Bool)
  | finite (negative : Bool) (m : Nat) (q : Int)

namespace Binary64

def ofFloat (x : Float) : Binary64 :=
  let bits := x.toBits.toNat
  let negative := bits / power 2 63 = 1
  let exponent : Nat := bits / power 2 52 % power 2 11
  let fraction := bits % power 2 52
  if exponent = 2047 then
    if fraction = 0 then .infinity negative else .nan
  else if exponent = 0 then .finite negative fraction (-1074)
  else .finite negative (power 2 52 + fraction) ((exponent : Int) - 1075)

def notANumber : Float :=
  Float.ofBits 0x7FF8000000000000

def infinite (negative : Bool) : Float :=
  Float.ofBits (if negative then 0xFFF0000000000000 else 0x7FF0000000000000)

/-- The quotient rounded to the nearest natural number, a tie to the even one. -/
def roundDiv (num den : Nat) : Nat :=
  let quotient := num / den
  let remainder := num % den
  if 2 * remainder < den then quotient
  else if den < 2 * remainder then quotient + 1
  else quotient + quotient % 2

/-- `num / (den · 2 ^ e)` as a quotient of naturals. -/
def scaleDown (num den : Nat) (e : Int) : Nat × Nat :=
  (num * power 2 (-e), den * power 2 e)

/-- The exponent of the last place of the number nearest to `num / den`: the quotient has 53 bits
before that place, and no place is below `2 ^ -1074`. -/
def lastPlace (num den : Nat) : Int :=
  let guess : Int := (Nat.log2 num : Int) - Nat.log2 den - 52
  let (n, d) := scaleDown num den guess
  max (-1074) (if n < d * power 2 52 then guess - 1 else guess)

/-- The number nearest to `num / den`, infinite when that lies beyond the largest finite one. -/
def ofRatio (negative : Bool) (num den : Nat) : Float :=
  let magnitude :=
    if num = 0 then 0
    else
      let e := lastPlace num den
      let (n, d) := scaleDown num den e
      min (2047 * power 2 52) ((e + 1074).toNat * power 2 52 + roundDiv n d)
  Float.ofBits ((if negative then power 2 63 else 0) + magnitude).toUInt64

/-- The number nearest to `± m · 2 ^ q`. -/
def ofBinary (negative : Bool) (m : Nat) (q : Int) : Float :=
  if m = 0 then ofRatio negative 0 1
  else if q > 1100 then ofRatio negative (power 2 1100) 1
  else if q < -(1200 + Nat.log2 m : Int) then ofRatio negative 0 1
  else ofRatio negative (m * power 2 q) (power 2 (-q))

/-- The number nearest to `± digits · 10 ^ e`. -/
def ofDecimal (negative : Bool) (digits : Nat) (e : Int) : Float :=
  if digits = 0 then ofRatio negative 0 1
  else if e > 400 then ofRatio negative (power 10 400) 1
  else if e < -(400 + Nat.log2 digits : Int) then ofRatio negative 0 1
  else ofRatio negative (digits * power 10 e) (power 10 (-e))

def ofInt (n : Int) : Float :=
  ofRatio (n < 0) n.natAbs 1

/-- The magnitude without what stands after the point. -/
def wholePart (m : Nat) (q : Int) : Nat :=
  m * power 2 q / power 2 (-q)

def isWhole : Binary64 → Bool
  | .finite _ m q => m * power 2 q % power 2 (-q) = 0
  | _ => false

/-- The number cut off towards zero; a NaN or an infinity has no such integer. -/
def truncate? : Binary64 → Option Int
  | .finite negative m q =>
    some (if negative then -(wholePart m q : Int) else wholePart m q)
  | _ => none

/-- The number cut off towards zero as a word; what does not fit becomes the lowest word. -/
def toInt64 (x : Float) : Int64 :=
  match (ofFloat x).truncate? with
  | some n => if -(power 2 63 : Int) ≤ n && n < power 2 63 then Int64.ofInt n else Int64.minValue
  | none => Int64.minValue

@[inherit_doc toInt64]
def toInt32 (x : Float) : Int32 :=
  match (ofFloat x).truncate? with
  | some n => if -(power 2 31 : Int) ≤ n && n < power 2 31 then Int32.ofInt n else Int32.minValue
  | none => Int32.minValue

/-- What is left of `a` after taking away the largest whole multiple of `b` that fits, with the
sign of `a`. It is exact. -/
def remainder (a b : Float) : Float :=
  match ofFloat a, ofFloat b with
  | .finite negative m q, .finite _ m' q' =>
    if m' = 0 then notANumber
    else
      let place := min q q'
      let left := m * power 2 (q - place) % (m' * power 2 (q' - place))
      ofBinary negative left place
  | .finite .., .infinity _ => a
  | _, _ => notANumber

end Binary64

end CampaignRules
