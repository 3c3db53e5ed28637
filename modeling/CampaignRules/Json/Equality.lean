import CampaignRules.Json.Basic

/-! # Equality of values

Numbers are equal across kinds: a whole number and a float as binary64 numbers, a signed and an
unsigned word as signed words. Arrays and objects are equal part by part. -/

namespace CampaignRules.Json

def numbersEqual : Json → Json → Bool
  | .unsigned a, .unsigned b => a == b
  | .signed a, .signed b => a == b
  | .unsigned a, .signed b => a.toInt64 == b
  | .signed a, .unsigned b => a == b.toInt64
  | a, b =>
    match a.toFloat?, b.toFloat? with
    | some x, some y => x == y
    | _, _ => false

mutual

def equal : Json → Json → Bool
  | .null, .null => true
  | .bool a, .bool b => a == b
  | .string a, .string b => a == b
  | .array a, .array b => itemsEqual a b
  | .object a, .object b => membersEqual a b
  | a, b => numbersEqual a b

def itemsEqual : List Json → List Json → Bool
  | [], [] => true
  | a :: as, b :: bs => equal a b && itemsEqual as bs
  | _, _ => false

def membersEqual : List (Bytes × Json) → List (Bytes × Json) → Bool
  | [], [] => true
  | (k, a) :: as, (l, b) :: bs => k == l && equal a b && membersEqual as bs
  | _, _ => false

end

end CampaignRules.Json
