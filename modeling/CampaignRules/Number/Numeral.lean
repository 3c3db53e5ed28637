import CampaignRules.Bytes
import CampaignRules.Number.Binary64

/-! # Numerals in texts

A numeral is a sign and then a decimal or hexadecimal fraction with an exponent, or the name of an
infinity or of a NaN. The longest start of a text that is a numeral is read, after leading blanks,
and the rest of the text is handed back. -/

namespace CampaignRules.Numeral

def lower (b : UInt8) : UInt8 :=
  if 'A'.toUInt8 ≤ b && b ≤ 'Z'.toUInt8 then b + 32 else b

/-- Space, and the tab, line feed, vertical tab, form feed and carriage return. -/
def isSpace (b : UInt8) : Bool :=
  b = ' '.toUInt8 || 9 ≤ b && b ≤ 13

/-- Takes a lower-case word off the text, in whatever case the text has it. -/
def dropWord : Bytes → Bytes → Option Bytes
  | [], text => some text
  | _ :: _, [] => none
  | c :: word, b :: text => if lower b = c then dropWord word text else none

/-- A sign and what follows it; no sign is a plus. -/
def sign : Bytes → Bool × Bytes
  | [] => (false, [])
  | b :: rest =>
    if b = '-'.toUInt8 then (true, rest)
    else if b = '+'.toUInt8 then (false, rest)
    else (false, b :: rest)

/-- The digits of a fraction: those before the point, those after it, and the rest. -/
def fraction (isDigit : UInt8 → Bool) (text : Bytes) : Bytes × Bytes × Bytes :=
  let whole := text.takeWhile isDigit
  match text.dropWhile isDigit with
  | [] => (whole, [], [])
  | b :: rest =>
    if b = '.'.toUInt8 then (whole, rest.takeWhile isDigit, rest.dropWhile isDigit)
    else (whole, [], b :: rest)

/-- An exponent after the given letter; without digits there is none and nothing is taken. -/
def exponent (letter : UInt8) (text : Bytes) : Int × Bytes :=
  match text with
  | [] => (0, [])
  | b :: rest =>
    if lower b = letter then
      let (negative, rest) := sign rest
      let digits := rest.takeWhile Bytes.isDigit
      if digits.isEmpty then (0, text)
      else
        let n := Bytes.decimalValue digits
        (if negative then -n else n, rest.dropWhile Bytes.isDigit)
    else (0, text)

def hexadecimal? (negative : Bool) (text : Bytes) : Option (Float × Bytes) := do
  let body ← dropWord "0x" text
  let (whole, part, rest) := fraction (fun b => (Bytes.hexValue? b).isSome) body
  let digits := whole ++ part
  if digits.isEmpty then none
  else
    let m := digits.foldl (fun n b => 16 * n + (Bytes.hexValue? b).getD 0) 0
    let (e, rest) := exponent 'p'.toUInt8 rest
    some (Binary64.ofBinary negative m (e - 4 * part.length), rest)

def decimal? (negative : Bool) (text : Bytes) : Option (Float × Bytes) :=
  let (whole, part, rest) := fraction Bytes.isDigit text
  let digits := whole ++ part
  if digits.isEmpty then none
  else
    let (e, rest) := exponent 'e'.toUInt8 rest
    some (Binary64.ofDecimal negative (Bytes.decimalValue digits) (e - part.length), rest)

/-- A NaN may carry letters, digits and underscores in brackets. -/
def dropPayload (text : Bytes) : Bytes :=
  let isWordByte := fun b => Bytes.isDigit b || 'a'.toUInt8 ≤ lower b && lower b ≤ 'z'.toUInt8 ||
    b = '_'.toUInt8
  match text with
  | [] => []
  | b :: rest =>
    if b = '('.toUInt8 then
      match rest.dropWhile isWordByte with
      | c :: after => if c = ')'.toUInt8 then after else text
      | [] => text
    else text

def named? (negative : Bool) (text : Bytes) : Option (Float × Bytes) :=
  match dropWord "inf" text with
  | some rest => some (Binary64.infinite negative, (dropWord "inity" rest).getD rest)
  | none => (dropWord "nan" text).map fun rest =>
    (Binary64.notANumber, dropPayload rest)

/-- The number at the start of a text and the rest of the text. -/
def read? (text : Bytes) : Option (Float × Bytes) :=
  let (negative, body) := sign (text.dropWhile isSpace)
  hexadecimal? negative body <|> decimal? negative body <|> named? negative body

/-- The number that the whole text spells. -/
def ofText? (text : Bytes) : Option Float :=
  match read? text with
  | some (x, []) => some x
  | _ => none

end CampaignRules.Numeral
