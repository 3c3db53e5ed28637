import CampaignRules.Error
import CampaignRules.Json.Equality
import CampaignRules.Json.Printer
import CampaignRules.Number.Numeral

/-! # Values in conditions

Conditions treat any value as a truth value, and scalars as numbers and texts. Comparisons that
convert their operands refuse arrays and objects; strict equality never converts. -/

namespace CampaignRules.Json

/-- Null, false, zero, NaN, the empty text and the empty array count as false. -/
def truthy : Json → Bool
  | .null => false
  | .bool b => b
  | .unsigned n => n != 0
  | .signed n => n != 0
  | .float x => x != 0.0 && !x.isNaN
  | .string s => !s.isEmpty
  | .array items => !items.isEmpty
  | .object _ => true

/-- The blanks around a number in a text. -/
def isBlank (b : UInt8) : Bool :=
  b = ' '.toUInt8 || b = '\t'.toUInt8 || b = '\n'.toUInt8 || b = '\r'.toUInt8

/-- The number that a text spells between blanks; a blank text counts as zero. -/
def numberOfText? (text : Bytes) : Option Float :=
  let trimmed := Bytes.trim isBlank text
  if trimmed.isEmpty then some 0.0 else Numeral.ofText? trimmed

/-- A scalar as a number; `none` stands for no number. -/
def toNumber : Json → Except Error (Option Float)
  | .null => .ok (some 0.0)
  | .bool b => .ok (some (if b then 1.0 else 0.0))
  | .string s => .ok (numberOfText? s)
  | v =>
    match v.toFloat? with
    | some x => .ok (if x.isNaN then none else some x)
    | none => .error (.typeMismatch (.notNumeric v.typeName))

/-- A number as a value: whole when it is whole and within 64 bits, and null when it is not
finite. -/
def ofNumber (x : Float) : Json :=
  match Binary64.ofFloat x with
  | .finite negative m q =>
    let binary := Binary64.finite negative m q
    match binary.isWhole, binary.truncate? with
    | true, some n =>
      if -(power 2 63 : Int) ≤ n && n ≤ power 2 63 then .signed (Binary64.toInt64 x) else .float x
    | _, _ => .float x
  | _ => .null

/-- An operand of an arithmetic operator: a number or a text that is not blank and spells one. -/
def operand (operator : Bytes) (v : Json) : Except Error Float :=
  match v with
  | .string s =>
    match if s.all isBlank then none else numberOfText? s with
    | some x => .ok x
    | none => .error (.typeMismatch (.operand operator s.quoted))
  | v =>
    match v.toFloat? with
    | some x => .ok x
    | none => .error (.typeMismatch (.operand operator v.typeName))

/-- A number as a text: whole ones below `10 ^ 21` are written out without a point. -/
def displayFloat (x : Float) : Bytes :=
  match Binary64.ofFloat x with
  | .nan => "NaN"
  | .infinity negative => if negative then "-Infinity" else "Infinity"
  | .finite negative m q =>
    let binary := Binary64.finite negative m q
    let whole := Binary64.wholePart m q
    if binary.isWhole && whole < power 10 21 then
      if negative then "-" ++ Bytes.decimal whole else Bytes.decimal whole
    else renderFloat x

mutual

/-- A value as a text. The items of an array stand between commas, null items as empty texts. -/
def display : Json → Bytes
  | .null => "null"
  | .bool b => if b then "true" else "false"
  | .unsigned n => Bytes.decimal n.toNat
  | .signed n => Bytes.signedDecimal n.toInt
  | .float x => displayFloat x
  | .string s => s
  | .array items => displayItems items
  | .object _ => "[object Object]"

def displayItems : List Json → Bytes
  | [] => []
  | [item] => if item.isNull then [] else display item
  | item :: rest => (if item.isNull then [] else display item) ++ "," ++ displayItems rest

end

/-- Numbers are equal if they are as binary64 numbers; other values as JSON values. -/
def strictlyEqual (a b : Json) : Bool :=
  match a.toFloat?, b.toFloat? with
  | some x, some y => x == y
  | _, _ => a.equal b

def compareNumbers (rel : Float → Float → Bool) (a b : Json) : Except Error Bool := do
  let x ← a.toNumber
  let y ← b.toNumber
  match x, y with
  | some x, some y => return rel x y
  | _, _ => return false

/-- Equality of scalars, which are compared as numbers unless both are texts or both are truth
values. Null equals null only. -/
def looselyEqual (a b : Json) : Except Error Bool :=
  if a.isContainer || b.isContainer then
    .error (.typeMismatch (.incomparable a.typeName b.typeName))
  else
    match a, b with
    | .null, .null => .ok true
    | .null, _ | _, .null => .ok false
    | .string s, .string t => .ok (s == t)
    | .bool s, .bool t => .ok (s == t)
    | a, b => compareNumbers (· == ·) a b

/-- Orders scalars: two texts by their bytes, anything else as numbers. -/
def compareScalars (texts : Bytes → Bytes → Bool) (numbers : Float → Float → Bool) (a b : Json) :
    Except Error Bool :=
  if a.isContainer || b.isContainer then
    .error (.typeMismatch (.unordered a.typeName b.typeName))
  else
    match a, b with
    | .string s, .string t => .ok (texts s t)
    | a, b => compareNumbers numbers a b

def lessThan (a b : Json) : Except Error Bool :=
  compareScalars (fun s t => s < t) (fun x y => x < y) a b

def lessOrEqual (a b : Json) : Except Error Bool :=
  compareScalars (fun s t => s ≤ t) (fun x y => x ≤ y) a b

/-- One step along a path: a member of an object, or an item of an array named by its position. -/
def step? (segment : Bytes) : Json → Option Json
  | .object members => Members.get? segment members
  | .array items =>
    if segment.isEmpty || !segment.all Bytes.isDigit then none
    else items[Bytes.decimalValue segment]?
  | _ => none

/-- Follows the segments of a path, as long as there is something to follow. -/
def follow? : List Bytes → Json → Option Json
  | [], v => some v
  | segment :: rest, v => (v.step? segment).bind (follow? rest)

/-- The value that a dotted path leads to; an empty path has one empty segment. -/
def resolvePath? (data : Json) (path : Bytes) : Option Json :=
  data.follow? (Bytes.splitOn '.'.toUInt8 path)

end CampaignRules.Json
