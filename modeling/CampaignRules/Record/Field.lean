import CampaignRules.Error

/-! # Fields of records

Records are read from JSON objects. A field that is left out or null takes its default; a field of
the wrong type is a fault of the record. -/

namespace CampaignRules.Record

def requiredText (record : Bytes) (key : String) (wire : Json) : Except Error Bytes :=
  match wire.get? key with
  | some (.string s) => .ok s
  | _ => .error (.invalidRecord (.missingText record key))

def optionalText (key : String) (wire : Json) : Except Error (Option Bytes) :=
  match wire.get? key with
  | none | some .null => .ok none
  | some (.string s) => .ok (some s)
  | some _ => .error (.invalidRecord (.notText key))

def optionalInt (key : String) (default : Int32) (wire : Json) : Except Error Int32 :=
  match wire.get? key with
  | none | some .null => .ok default
  | some v =>
    match v.toInt32? with
    | some n => .ok n
    | none => .error (.invalidRecord (.notNumber key))

/-- A truth value, also written as a number that is or is not zero. -/
def optionalBool (key : String) (default : Bool) (wire : Json) : Except Error Bool :=
  match wire.get? key with
  | none | some .null => .ok default
  | some (.bool b) => .ok b
  | some v =>
    match v.toInt32? with
    | some n => .ok (n != 0)
    | none => .error (.invalidRecord (.notBoolean key))

/-- A text that takes its default whenever it is no text. -/
def textOr (key : String) (default : Bytes) (wire : Json) : Bytes :=
  (wire.getText? key).getD default

def optionalToJson : Option Bytes → Json
  | some s => .string s
  | none => .null

end CampaignRules.Record
