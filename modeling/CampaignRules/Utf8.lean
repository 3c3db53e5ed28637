import CampaignRules.Bytes

/-! # UTF-8

A well-formed text is a sequence of scalar values, each a lead byte and its continuation bytes.
The reader takes one byte at a time and refuses the first byte that no well-formed sequence can
have there, so what it had accepted of a broken sequence is the longest part that could still have
become a scalar value. -/

namespace CampaignRules.Utf8

/-- Between two scalar values, or inside one with `more` bytes still to come after a next byte that
lies between `low` and `high`. -/
inductive State where
  | start
  | within (more : Nat) (low high : UInt8)

namespace State

/-- What a lead byte asks for. Overlong forms, surrogates and values past the last plane are ruled
out by the bounds on the second byte. -/
def lead (b : UInt8) : Option State :=
  if b < 0x80 then some .start
  else if b < 0xC2 then none
  else if b < 0xE0 then some (.within 0 0x80 0xBF)
  else if b = 0xE0 then some (.within 1 0xA0 0xBF)
  else if b = 0xED then some (.within 1 0x80 0x9F)
  else if b < 0xF0 then some (.within 1 0x80 0xBF)
  else if b = 0xF0 then some (.within 2 0x90 0xBF)
  else if b < 0xF4 then some (.within 2 0x80 0xBF)
  else if b = 0xF4 then some (.within 2 0x80 0x8F)
  else none

def step (b : UInt8) : State → Option State
  | .start => lead b
  | .within more low high =>
    if low ≤ b && b ≤ high then
      match more with
      | 0 => some .start
      | more + 1 => some (.within more 0x80 0xBF)
    else none

end State

def accepts : State → Bytes → Bool
  | .start, [] => true
  | .within .., [] => false
  | state, b :: rest =>
    match state.step b with
    | some next => accepts next rest
    | none => false

def isValid (text : Bytes) : Bool :=
  accepts .start text

/-- The replacement character U+FFFD. -/
def replacement : Bytes := [0xEF, 0xBF, 0xBD]

/-- `repairFrom state pending text` repairs `text` after the bytes `pending`, in reverse, of an
unfinished scalar value. -/
def repairFrom : State → Bytes → Bytes → Bytes
  | .start, _, [] => []
  | .within .., _, [] => replacement
  | state, pending, b :: rest =>
    match state.step b with
    | some .start => pending.reverse ++ b :: repairFrom .start [] rest
    | some next => repairFrom next (b :: pending) rest
    | none =>
      match state with
      | .start => replacement ++ repairFrom .start [] rest
      | .within .. =>
        match State.lead b with
        | some .start => replacement ++ b :: repairFrom .start [] rest
        | some next => replacement ++ repairFrom next [b] rest
        | none => replacement ++ replacement ++ repairFrom .start [] rest

/-- Replaces each broken sequence by one replacement character. -/
def repair (text : Bytes) : Bytes :=
  repairFrom .start [] text

def encode (c : Char) : Bytes :=
  String.utf8EncodeChar c

end CampaignRules.Utf8
