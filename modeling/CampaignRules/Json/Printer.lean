import CampaignRules.Json.Basic
import CampaignRules.Number.Shortest
import CampaignRules.Utf8

/-! # JSON texts

A value is written on one line without blanks, or one member or item a line with an indent. Texts
must be UTF-8; a strict printer refuses a value with another text in it, a lenient one puts
replacement characters there. -/

namespace CampaignRules.Json

/-- Floats keep a point or an exponent; the point is written out from four places before the first
digit to fifteen digits in front of it. -/
def numberLayout : NumberLayout where
  lowestPoint := -4
  highestPoint := 15
  exponentWidth := 2

/-- Of the numerals that read back as the float the shortest is written, and of several the nearest. A
printer that settles for digits that read back may write more of them, `5e22` as
`4.9999999999999996e+22`. What is proved of written floats holds for either: their numerals are ASCII
and read back as the float. What is no number is written as null. -/
def renderFloat (x : Float) : Bytes :=
  match Binary64.ofFloat x with
  | .finite negative m q =>
    let sign : Bytes := if negative then "-" else ""
    let magnitude : Bytes := if m = 0 then "0.0" else numberLayout.render (Decimal.shortest m q)
    sign ++ magnitude
  | _ => "null"

/-- Quotes, backslashes and control characters are escaped. -/
def escapeByte (b : UInt8) : Bytes :=
  if b = '"'.toUInt8 then "\\\""
  else if b = '\\'.toUInt8 then "\\\\"
  else if b = 8 then "\\b"
  else if b = 9 then "\\t"
  else if b = 10 then "\\n"
  else if b = 12 then "\\f"
  else if b = 13 then "\\r"
  else if b < 0x20 then "\\u00" ++ Bytes.hex [b]
  else [b]

def renderText (text : Bytes) : Bytes :=
  "\"" ++ text.flatMap escapeByte ++ "\""

mutual

def render : Json → Bytes
  | .null => "null"
  | .bool b => if b then "true" else "false"
  | .unsigned n => Bytes.decimal n.toNat
  | .signed n => Bytes.signedDecimal n.toInt
  | .float x => renderFloat x
  | .string s => renderText s
  | .array items => "[" ++ renderItems items ++ "]"
  | .object members => "\x7b" ++ renderMembers members ++ "\x7d"

def renderItems : List Json → Bytes
  | [] => []
  | [v] => render v
  | v :: rest => render v ++ "," ++ renderItems rest

def renderMembers : List (Bytes × Json) → Bytes
  | [] => []
  | [(k, v)] => renderText k ++ ":" ++ render v
  | (k, v) :: rest => renderText k ++ ":" ++ render v ++ "," ++ renderMembers rest

end

def newline (indent : Nat) : Bytes :=
  "\n" ++ List.replicate indent ' '.toUInt8

mutual

/-- Each item and member stands on a line of its own, two columns to the right of its container. -/
def renderIndented (indent : Nat) : Json → Bytes
  | .array [] => "[]"
  | .array items => "[" ++ indentedItems (indent + 2) items ++ newline indent ++ "]"
  | .object [] => "\x7b\x7d"
  | .object members => "\x7b" ++ indentedMembers (indent + 2) members ++ newline indent ++ "\x7d"
  | .null => render .null
  | .bool b => render (.bool b)
  | .unsigned n => render (.unsigned n)
  | .signed n => render (.signed n)
  | .float x => render (.float x)
  | .string s => render (.string s)

def indentedItems (indent : Nat) : List Json → Bytes
  | [] => []
  | [v] => newline indent ++ renderIndented indent v
  | v :: rest => newline indent ++ renderIndented indent v ++ "," ++ indentedItems indent rest

def indentedMembers (indent : Nat) : List (Bytes × Json) → Bytes
  | [] => []
  | [(k, v)] => newline indent ++ renderText k ++ ": " ++ renderIndented indent v
  | (k, v) :: rest =>
    newline indent ++ renderText k ++ ": " ++ renderIndented indent v ++ "," ++
      indentedMembers indent rest

end

mutual

def isUtf8 : Json → Bool
  | .string s => Utf8.isValid s
  | .array items => itemsUtf8 items
  | .object members => membersUtf8 members
  | _ => true

def itemsUtf8 : List Json → Bool
  | [] => true
  | v :: rest => isUtf8 v && itemsUtf8 rest

def membersUtf8 : List (Bytes × Json) → Bool
  | [] => true
  | (k, v) :: rest => Utf8.isValid k && isUtf8 v && membersUtf8 rest

end

mutual

/-- Repairs all texts and keys, each where it stands. -/
def repaired : Json → Json
  | .string s => .string (Utf8.repair s)
  | .array items => .array (itemsRepaired items)
  | .object members => .object (membersRepaired members)
  | v => v

def itemsRepaired : List Json → List Json
  | [] => []
  | v :: rest => repaired v :: itemsRepaired rest

def membersRepaired : List (Bytes × Json) → List (Bytes × Json)
  | [] => []
  | (k, v) :: rest => (Utf8.repair k, repaired v) :: membersRepaired rest

end

/-- The text of a value, if all texts in it are UTF-8. -/
def render? (v : Json) : Option Bytes :=
  if v.isUtf8 then some v.render else none

def renderLenient (v : Json) : Bytes :=
  v.repaired.render

def renderIndentedLenient (v : Json) : Bytes :=
  v.repaired.renderIndented 0

end CampaignRules.Json
