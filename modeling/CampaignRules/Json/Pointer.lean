import CampaignRules.Json.Parser

/-! # Pointers into values

A pointer is a list of tokens, written with a slash before each. In a token a tilde begins an
escape, `~0` for a tilde and `~1` for a slash. A token names a member of an object or, as a decimal
without leading zeros, an item of an array. -/

namespace CampaignRules.Json

abbrev Pointer := List Bytes

namespace Pointer

def tilde : UInt8 := '~'.toUInt8

def slash : UInt8 := '/'.toUInt8

/-- Every tilde begins one of the two escapes. -/
def isEscaped : Bytes → Bool
  | [] => true
  | [b] => b ≠ tilde
  | b :: c :: rest =>
    if b = tilde then (c = '0'.toUInt8 || c = '1'.toUInt8) && isEscaped rest
    else isEscaped (c :: rest)

/-- Replaces the escapes; a tilde that begins no escape stays. -/
def unescape : Bytes → Bytes
  | [] => []
  | [b] => [b]
  | b :: c :: rest =>
    if b = tilde then
      if c = '1'.toUInt8 then slash :: unescape rest
      else if c = '0'.toUInt8 then tilde :: unescape rest
      else b :: unescape (c :: rest)
    else b :: unescape (c :: rest)

/-- The pointer that a text spells. The empty text is the pointer to the whole value. -/
def parse (text : Bytes) : Except Failure Pointer :=
  match text with
  | [] => .ok []
  | b :: rest =>
    if b = slash && isEscaped text then .ok ((Bytes.splitOn slash rest).map unescape)
    else .error .malformed

/-- The position in an array of the given size that a token names. -/
def index (size : Nat) (token : Bytes) : Except Failure Nat :=
  let startsLikeIndex := match token with
    | [] | [_] => true
    | b :: _ => '1'.toUInt8 ≤ b && b ≤ '9'.toUInt8
  if token = Bytes.ofString "-" then .error .outOfRange
  else if !startsLikeIndex then .error .malformed
  else if token.isEmpty || !token.all Bytes.isDigit then .error .outOfRange
  else
    let n := Bytes.decimalValue token
    if n < size then .ok n else .error .outOfRange

/-- One step into a value. -/
def child (token : Bytes) : Json → Except Failure Json
  | .object members =>
    match Members.get? token members with
    | some v => .ok v
    | none => .error .outOfRange
  | .array items =>
    match index items.length token with
    | .ok n =>
      match items[n]? with
      | some v => .ok v
      | none => .error .outOfRange
    | .error e => .error e
  | _ => .error .outOfRange

/-- Puts another value in the place that one step leads to. -/
def replaceChild (token : Bytes) (value : Json) : Json → Json
  | .object members => .object (Members.set token value members)
  | .array items =>
    match index items.length token with
    | .ok n => .array (items.set n value)
    | .error _ => .array items
  | v => v

end Pointer

/-- The value that a pointer leads to. -/
def at? : Pointer → Json → Except Failure Json
  | [], v => .ok v
  | token :: rest, v => do (← Pointer.child token v).at? rest

/-- Changes the value that a pointer leads to. The change may fail for a reason of its own, and
`lift` says how a pointer that leads nowhere is reported. -/
def updateAt {ε : Type} (lift : Failure → ε) (change : Json → Except ε Json) :
    Pointer → Json → Except ε Json
  | [], v => change v
  | token :: rest, v => do
    let inner ← (Pointer.child token v).mapError lift
    let inner ← updateAt lift change rest inner
    return Pointer.replaceChild token inner v

end CampaignRules.Json
