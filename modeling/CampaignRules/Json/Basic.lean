import CampaignRules.Bytes
import CampaignRules.Number.Binary64

/-! # JSON values

Numbers come in three kinds, since a whole number keeps all its 64 bits. The members of an object
are a list; in a canonical value the keys of every object are strictly increasing, and all
operations here keep them so. -/

namespace CampaignRules

inductive Json where
  | null
  | bool (b : Bool)
  | unsigned (n : UInt64)
  | signed (n : Int64)
  | float (x : Float)
  | string (text : Bytes)
  | array (items : List Json)
  | object (members : List (Bytes × Json))
  deriving Inhabited

namespace Json

abbrev Members := List (Bytes × Json)

instance : Coe String Json := ⟨fun s => .string (Bytes.ofString s)⟩
instance : Coe Bytes Json := ⟨.string⟩
instance : Coe Bool Json := ⟨.bool⟩

def ofNat (n : Nat) : Json :=
  .unsigned n.toUInt64

def ofInt32 (n : Int32) : Json :=
  .signed n.toInt64

def ofOption : Option Json → Json
  | some v => v
  | none => .null

def ofTexts (texts : List Bytes) : Json :=
  .array (texts.map .string)

def typeName : Json → Bytes
  | .null => "null"
  | .bool _ => "boolean"
  | .unsigned _ | .signed _ | .float _ => "number"
  | .string _ => "string"
  | .array _ => "array"
  | .object _ => "object"

def isNull : Json → Bool
  | .null => true
  | _ => false

def isInteger : Json → Bool
  | .unsigned _ | .signed _ => true
  | _ => false

def isArray : Json → Bool
  | .array _ => true
  | _ => false

def isObject : Json → Bool
  | .object _ => true
  | _ => false

def isContainer (v : Json) : Bool :=
  v.isArray || v.isObject

def text? : Json → Option Bytes
  | .string s => some s
  | _ => none

def members? : Json → Option Members
  | .object members => some members
  | _ => none

def items? : Json → Option (List Json)
  | .array items => some items
  | _ => none

end Json

namespace Json.Members

def get? (key : Bytes) : Members → Option Json
  | [] => none
  | (k, v) :: rest => if k = key then some v else get? key rest

def contains (key : Bytes) (members : Members) : Bool :=
  (get? key members).isSome

/-- Gives a key its value, in the place that the order of the keys has for it. -/
def set (key : Bytes) (value : Json) : Members → Members
  | [] => [(key, value)]
  | (k, v) :: rest =>
    if key < k then (key, value) :: (k, v) :: rest
    else if key = k then (k, value) :: rest
    else (k, v) :: set key value rest

def erase (key : Bytes) (members : Members) : Members :=
  members.filter fun m => m.1 ≠ key

/-- The members in the order of their keys; the last value given for a key counts. -/
def ofList (members : Members) : Members :=
  members.foldl (fun set m => Members.set m.1 m.2 set) []

def keys (members : Members) : List Bytes :=
  members.map (·.1)

/-- Keys strictly increase. -/
def Sorted (members : Members) : Prop :=
  (keys members).Pairwise (· < ·)

theorem get?_set (key other : Bytes) (value : Json) (members : Members) :
    get? other (set key value members) = if other = key then some value else get? other members := by
  induction members with
  | nil => simp only [set, get?, eq_comm]
  | cons member rest ih =>
      obtain ⟨k, v⟩ := member
      rw [set]
      split
      · simp only [get?, eq_comm]
      · split
        · rename_i heq
          subst heq
          simp only [get?, eq_comm]
          split <;> rfl
        · rename_i hne
          rw [get?, get?, ih]
          by_cases hk : k = other
          · subst hk
            simp [Ne.symm hne]
          · simp [hk]

theorem get?_set_ne {key other : Bytes} (hne : other ≠ key) (value : Json) (members : Members) :
    get? other (set key value members) = get? other members := by
  rw [get?_set, if_neg hne]

theorem get?_erase_ne {key other : Bytes} (hne : other ≠ key) (members : Members) :
    get? other (erase key members) = get? other members := by
  induction members with
  | nil => rfl
  | cons member rest ih =>
      by_cases hkey : member.1 = key
      · have hdrop : erase key (member :: rest) = erase key rest := by simp [erase, hkey]
        rw [hdrop, ih, get?, if_neg fun heq => hne (heq.symm.trans hkey)]
      · have hkeep : erase key (member :: rest) = member :: erase key rest := by simp [erase, hkey]
        rw [hkeep, get?, get?, ih]

end Json.Members

namespace Json

/-- An object with the given members, in whatever order they are given. -/
def ofMembers (members : List (Bytes × Json)) : Json :=
  .object (Members.ofList members)

/-- The value of a member; anything but an object has no members. -/
def get? (key : Bytes) : Json → Option Json
  | .object members => Members.get? key members
  | _ => none

def getText? (key : Bytes) (v : Json) : Option Bytes :=
  v.get? key |>.bind text?

theorem bind_text?_eq_some_iff {found : Option Json} {text : Bytes} :
    found.bind text? = some text ↔ found = some (.string text) := by
  cases found with
  | none => simp
  | some v => cases v <;> simp [text?]

def hasKey (key : Bytes) (v : Json) : Bool :=
  (v.get? key).isSome

/-- Sets a member of an object. -/
def set (v : Json) (key : Bytes) (value : Json) : Json :=
  match v with
  | .object members => .object (Members.set key value members)
  | v => v

@[simp] theorem isObject_set (v : Json) (key : Bytes) (value : Json) :
    (v.set key value).isObject = v.isObject := by
  cases v <;> rfl

theorem get?_set_ne {key other : Bytes} (hne : other ≠ key) (v value : Json) :
    (v.set key value).get? other = v.get? other := by
  cases v with
  | object members => exact Members.get?_set_ne hne value members
  | _ => rfl

theorem get?_set_self {v : Json} (hobject : v.isObject) (key : Bytes) (value : Json) :
    (v.set key value).get? key = some value := by
  cases v with
  | object members => exact (Members.get?_set key key value members).trans (if_pos rfl)
  | _ => cases hobject

/-- The nearest binary64 number, for the three kinds of number. -/
def toFloat? : Json → Option Float
  | .unsigned n => some (Binary64.ofInt n.toNat)
  | .signed n => some (Binary64.ofInt n.toInt)
  | .float x => some x
  | _ => none

/-- A number as a 32-bit integer: whole numbers wrap around, others are cut off towards zero. -/
def toInt32? : Json → Option Int32
  | .unsigned n => some (Int32.ofNat n.toNat)
  | .signed n => some n.toInt32
  | .float x => some (Binary64.toInt32 x)
  | _ => none

/-- A whole number as a 64-bit integer, wrapping around. -/
def toInt64? : Json → Option Int64
  | .unsigned n => some n.toInt64
  | .signed n => some n
  | _ => none

mutual

/-- The number of containers around the deepest key or value. -/
def nesting : Json → Nat
  | .array items => itemsNesting items
  | .object members => membersNesting members
  | _ => 0

def itemsNesting : List Json → Nat
  | [] => 0
  | v :: rest => max (nesting v + 1) (itemsNesting rest)

def membersNesting : List (Bytes × Json) → Nat
  | [] => 0
  | (_, v) :: rest => max (nesting v + 1) (membersNesting rest)

end

mutual

/-- Puts the members of all objects in order, the last of several values for a key counting. -/
def canonical : Json → Json
  | .array items => .array (canonicalItems items)
  | .object members => .object (Members.ofList (canonicalMembers members))
  | v => v

def canonicalItems : List Json → List Json
  | [] => []
  | v :: rest => canonical v :: canonicalItems rest

def canonicalMembers : List (Bytes × Json) → List (Bytes × Json)
  | [] => []
  | (k, v) :: rest => (k, canonical v) :: canonicalMembers rest

end

mutual

/-- The keys of every object in the value strictly increase. -/
def IsCanonical : Json → Prop
  | .array items => ItemsCanonical items
  | .object members => Members.Sorted members ∧ MembersCanonical members
  | _ => True

def ItemsCanonical : List Json → Prop
  | [] => True
  | v :: rest => IsCanonical v ∧ ItemsCanonical rest

def MembersCanonical : List (Bytes × Json) → Prop
  | [] => True
  | (_, v) :: rest => IsCanonical v ∧ MembersCanonical rest

end

end Json

end CampaignRules
