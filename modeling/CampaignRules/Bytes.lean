/-! # Byte strings

Names, paths and texts are sequences of bytes. They need not be UTF-8: a slice of a text may end
inside a character. Everything that looks for a character looks for its ASCII byte. -/

namespace CampaignRules

abbrev Bytes := List UInt8

namespace Bytes

/-- The UTF-8 bytes of a text. -/
def ofString (s : String) : Bytes :=
  s.toByteArray.data.toList

instance : Coe String Bytes := ⟨ofString⟩

theorem ofString_inj {s t : String} : ofString s = ofString t ↔ s = t :=
  ⟨fun h => String.toByteArray_inj.1 (ByteArray.ext (Array.ext' h)), fun h => h ▸ rfl⟩

def toByteArray (b : Bytes) : ByteArray :=
  ⟨b.toArray⟩

/-- A natural number in base ten, without leading zeros. -/
def decimal (n : Nat) : Bytes :=
  (Nat.toDigits 10 n).map Char.toUInt8

def signedDecimal : Int → Bytes
  | .ofNat n => decimal n
  | .negSucc n => '-'.toUInt8 :: decimal (n + 1)

def zeros (count : Nat) : Bytes :=
  List.replicate count '0'.toUInt8

/-- A natural number in base ten, filled up with zeros to at least the given width. -/
def paddedDecimal (width n : Nat) : Bytes :=
  let digits := decimal n
  zeros (width - digits.length) ++ digits

def isDigit (b : UInt8) : Bool :=
  '0'.toUInt8 ≤ b && b ≤ '9'.toUInt8

def digitValue (b : UInt8) : Nat :=
  b.toNat - '0'.toNat

/-- The value of a run of decimal digits. -/
def decimalValue (digits : Bytes) : Nat :=
  digits.foldl (fun n b => 10 * n + digitValue b) 0

def hexDigit (n : Nat) : UInt8 :=
  if n < 10 then (n + '0'.toNat).toUInt8 else (n - 10 + 'a'.toNat).toUInt8

/-- The value of one hexadecimal digit of either case. -/
def hexValue? (b : UInt8) : Option Nat :=
  if isDigit b then some (digitValue b)
  else if 'a'.toUInt8 ≤ b && b ≤ 'f'.toUInt8 then some (b.toNat - 'a'.toNat + 10)
  else if 'A'.toUInt8 ≤ b && b ≤ 'F'.toUInt8 then some (b.toNat - 'A'.toNat + 10)
  else none

/-- Two lower-case hexadecimal digits a byte. -/
def hex (b : Bytes) : Bytes :=
  b.flatMap fun c => [hexDigit (c.toNat / 16), hexDigit (c.toNat % 16)]

/-- The bytes before the first `sep` and, if there is one, the bytes after it. -/
def cutAt (sep : UInt8) : Bytes → Bytes × Option Bytes
  | [] => ([], none)
  | b :: rest =>
    if b = sep then ([], some rest)
    else
      let (head, tail) := cutAt sep rest
      (b :: head, tail)

theorem cutAt_append {sep : UInt8} {head : Bytes} (hhead : sep ∉ head) (tail : Bytes) :
    cutAt sep (head ++ sep :: tail) = (head, some tail) := by
  induction head with
  | nil => exact if_pos rfl
  | cons b rest ih =>
      rw [List.mem_cons, not_or] at hhead
      rw [List.cons_append, cutAt, if_neg (Ne.symm hhead.1), ih hhead.2]

/-- The pieces between the occurrences of `sep`; there is always at least one. -/
def splitOn (sep : UInt8) : Bytes → List Bytes
  | [] => [[]]
  | b :: rest =>
    if b = sep then [] :: splitOn sep rest
    else
      match splitOn sep rest with
      | [] => [[b]]
      | piece :: pieces => (b :: piece) :: pieces

theorem splitOn_eq (sep : UInt8) (b : Bytes) :
    splitOn sep b =
      (cutAt sep b).1 :: ((cutAt sep b).2.map (splitOn sep)).getD [] := by
  induction b with
  | nil => rfl
  | cons head rest ih =>
      rw [splitOn, cutAt]
      split
      · rfl
      · rw [ih]

/-- Drops the bytes of a class from both ends. -/
def trim (blank : UInt8 → Bool) (b : Bytes) : Bytes :=
  ((b.dropWhile blank).reverse.dropWhile blank).reverse

/-- `needle` occurs somewhere in the text; the empty text occurs everywhere. -/
def contains (needle : Bytes) : Bytes → Bool
  | [] => needle.isEmpty
  | b :: rest => needle.isPrefixOf (b :: rest) || contains needle rest

def join (sep : Bytes) (pieces : List Bytes) : Bytes :=
  sep.intercalate pieces

/-- What a reader that stops at the first NUL sees. -/
def beforeNul (b : Bytes) : Bytes :=
  b.takeWhile (· ≠ 0)

def quoted (b : Bytes) : Bytes :=
  "\"" ++ b ++ "\""

end Bytes

/-! ### Sets of byte strings

A finite set is a strictly increasing list. -/

namespace Bytes

/-- Adds a name to a sorted list unless it is there. -/
def insertSorted (name : Bytes) : List Bytes → List Bytes
  | [] => [name]
  | head :: rest =>
    if name < head then name :: head :: rest
    else if name = head then head :: rest
    else head :: insertSorted name rest

/-- The distinct members of a list in increasing order. -/
def sortedSet (names : List Bytes) : List Bytes :=
  names.foldl (fun set name => insertSorted name set) []

def unionSorted (a b : List Bytes) : List Bytes :=
  b.foldl (fun set name => insertSorted name set) a

@[simp] theorem mem_insertSorted {name other : Bytes} {set : List Bytes} :
    other ∈ insertSorted name set ↔ other = name ∨ other ∈ set := by
  induction set with
  | nil => simp [insertSorted]
  | cons head rest ih =>
      rw [insertSorted]
      split
      · exact List.mem_cons
      · split <;> grind

theorem insertSorted_pairwise {name : Bytes} {set : List Bytes} (hset : set.Pairwise (· < ·)) :
    (insertSorted name set).Pairwise (· < ·) := by
  induction set with
  | nil => simp [insertSorted]
  | cons head rest ih =>
      rw [List.pairwise_cons] at hset
      rw [insertSorted]
      split
      · rename_i hlt
        refine List.pairwise_cons.2 ⟨fun other hother => ?_, List.pairwise_cons.2 hset⟩
        rcases List.mem_cons.1 hother with rfl | hother
        · exact hlt
        · exact List.lt_trans hlt (hset.1 other hother)
      · split
        · exact List.pairwise_cons.2 hset
        · refine List.pairwise_cons.2 ⟨fun other hother => ?_, ih hset.2⟩
          rcases mem_insertSorted.1 hother with rfl | hother
          · grind
          · exact hset.1 other hother

theorem mem_foldl_insertSorted {other : Bytes} {names set : List Bytes} :
    other ∈ names.foldl (fun set name => insertSorted name set) set ↔ other ∈ names ∨ other ∈ set := by
  induction names generalizing set with
  | nil => simp
  | cons name names ih => rw [List.foldl_cons, ih]; simp only [mem_insertSorted, List.mem_cons]; grind

@[simp] theorem mem_sortedSet {other : Bytes} {names : List Bytes} :
    other ∈ sortedSet names ↔ other ∈ names := by
  simp [sortedSet, mem_foldl_insertSorted]

theorem sortedSet_pairwise (names : List Bytes) : (sortedSet names).Pairwise (· < ·) := by
  suffices h : ∀ set : List Bytes, set.Pairwise (· < ·) →
      (names.foldl (fun set name => insertSorted name set) set).Pairwise (· < ·) from h [] .nil
  induction names with
  | nil => exact fun _ hset => hset
  | cons name names ih => exact fun _ hset => ih _ (insertSorted_pairwise hset)

theorem sortedSet_nodup (names : List Bytes) : (sortedSet names).Nodup := by
  refine (sortedSet_pairwise names).imp ?_
  rintro a _ hlt rfl
  exact List.lt_irrefl a hlt

end Bytes

end CampaignRules
