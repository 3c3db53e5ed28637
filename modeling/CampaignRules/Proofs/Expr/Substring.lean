import CampaignRules.Proofs.Expr.Operands
import CampaignRules.Proofs.Json.Numeric

/-! # Substrings

A part of a text is cut off by a start and a count, each of which may be negative and then counts from
the end. Here the cuts are made once more byte by byte, so that a byte is never read outside the text,
and they come to the same. What a count leaves over at the front of a text is what a start of the same
number leaves over at its end. -/

namespace CampaignRules

namespace Bytes

open Operator (tailFrom takeCount)

/-- The bytes at the positions from `start` up to `stop`; nothing if there is none at one of them. -/
def part? (text : Bytes) (start stop : Nat) : Option Bytes :=
  (List.range' start (stop - start)).mapM fun i => text[i]?

theorem part?_eq {text : Bytes} {start stop : Nat} (hstop : stop ≤ text.length) :
    text.part? start stop = some ((text.take stop).drop start) := by
  obtain ⟨count, hcount⟩ : ∃ count, stop - start = count := ⟨_, rfl⟩
  rw [part?, hcount]
  induction count generalizing start with
  | zero =>
      rw [List.drop_eq_nil_of_le (by rw [List.length_take]; omega)]
      rfl
  | succ count ih =>
      have hlt : start < (text.take stop).length := by
        rw [List.length_take]
        omega
      rw [List.range'_succ, List.mapM_cons, ih (by omega), List.getElem?_eq_getElem (by omega),
        List.drop_eq_getElem_cons hlt, List.getElem_take]
      rfl

/-- So many bytes from the front; a negative count leaves so many out at the end. -/
def front? (tail : Bytes) (count : Int) : Option Bytes :=
  if count < 0 then tail.part? 0 (max 0 (tail.length + count)).toNat
  else tail.part? 0 (min count tail.length).toNat

/-- The bytes from a start on, and of these as many as are counted. -/
def substring? (text : Bytes) (start : Int) (count : Option Int) : Option Bytes :=
  let start := if start < 0 then max 0 (text.length + start) else start
  if text.length ≤ start then some []
  else do
    let tail ← text.part? start.toNat text.length
    match count with
    | none => return tail
    | some count => tail.front? count

theorem takeCount_nil (count : Int) : takeCount [] count = [] := by
  simp [takeCount]

theorem front?_eq (tail : Bytes) (count : Int) : tail.front? count = some (takeCount tail count) := by
  by_cases hsign : count < 0
  · rw [front?, if_pos hsign, part?_eq (by omega), List.drop_zero, takeCount, if_pos hsign]
    congr 2
    omega
  · rw [front?, if_neg hsign, part?_eq (by omega), List.drop_zero, takeCount, if_neg hsign]
    rcases Int.le_total count tail.length with hle | hle
    · rw [min_eq_left hle]
    · rw [min_eq_right hle, List.take_of_length_le (by omega), List.take_of_length_le (by omega)]

/-- A substring is read inside the text, wherever it starts and however long it is. -/
theorem substring?_eq (text : Bytes) (start : Int) (count : Option Int) :
    text.substring? start count =
      some (count.elim (tailFrom text start) (takeCount (tailFrom text start))) := by
  have htail : tailFrom text start =
      text.drop (if start < 0 then max 0 (text.length + start) else start).toNat := rfl
  rw [substring?, htail]
  generalize (if start < 0 then max 0 (text.length + start) else start) = place
  by_cases hend : text.length ≤ place
  · have hnil : text.drop place.toNat = [] := List.drop_eq_nil_of_le (by omega)
    rw [if_pos hend, hnil]
    cases count with
    | none => rfl
    | some count => exact congrArg some (takeCount_nil count).symm
  · rw [if_neg hend, part?_eq le_rfl, List.take_length]
    cases count with
    | none => rfl
    | some count => exact front?_eq _ count

end Bytes

namespace Operator

variable {v : Json} {n : Int}

/-- A whole number up to `2 ^ 53` is the position that it names. -/
theorem position_of_quotient? (hv : v.quotient? = Option.some (n : ℚ)) (hn : n.natAbs ≤ 2 ^ 53) :
    position v = .ok n := by
  obtain ⟨x, hfloat, hnan, hvalue⟩ := Json.exists_toFloat? hv hn
  have hnumber : v.toNumber = .ok (Option.some x) := by
    cases v with
    | unsigned | signed | float =>
        rw [Json.toNumber]
        · rw [hfloat]
          dsimp only
          rw [hnan]
          rfl
        all_goals simp
    | _ => cases hfloat
  rw [position, hnumber]
  show Except.ok (Binary64.toInt64 x).toInt = _
  rw [Binary64.toInt64_of_value? hvalue (by omega) (by omega),
    Int64.toInt_ofInt_of_le (by omega) (by omega)]

variable {text : Bytes} {start count : Json} {p k : Int}

theorem substringOf_none (hstart : position start = .ok p) :
    substringOf text start Option.none = .ok (tailFrom text p) := by
  rw [substringOf, hstart]
  show (if (tailFrom text p).isEmpty then _ else _) = _
  split
  · rename_i hempty
    rw [List.isEmpty_iff.1 hempty]
    rfl
  · rfl

theorem substringOf_some (hstart : position start = .ok p) (hcount : position count = .ok k)
    (hnull : count ≠ .null) :
    substringOf text start (Option.some count) = .ok (takeCount (tailFrom text p) k) := by
  rw [substringOf, hstart]
  show (if (tailFrom text p).isEmpty then _ else _) = _
  split
  · rename_i hempty
    rw [List.isEmpty_iff.1 hempty, Bytes.takeCount_nil]
    rfl
  · cases count with
    | null => exact absurd rfl hnull
    | _ =>
      show position _ >>= _ = _
      rw [hcount]
      rfl

theorem takeCount_append_tailFrom (text : Bytes) (n : Int) :
    takeCount (tailFrom text 0) n ++ tailFrom text n = text := by
  have hwhole : tailFrom text 0 = text := rfl
  rw [hwhole, takeCount, tailFrom]
  by_cases hsign : n < 0
  · have hplace : (max 0 (text.length + n)).toNat = (text.length + n).toNat := by omega
    rw [if_pos hsign, if_pos hsign, hplace, List.take_append_drop]
  · rw [if_neg hsign, if_neg hsign, List.take_append_drop]

end Operator

namespace Expr

open Operator

/-- A text is its first bytes up to some number, followed by its bytes from that number on. The number
may be negative, and beyond the length of the text. Neither part reads a byte outside the text. -/
theorem substring_split {registry : Registry} {scope : Scope} {source zero number : Expr} {text : Bytes}
    {start count : Json} {n : Int} (hn : n.natAbs ≤ 2 ^ 53)
    (hsource : source.meaning registry scope = (.ok (.string text) : Except Error Json))
    (hzero : zero.meaning registry scope = (.ok start : Except Error Json))
    (hnumber : number.meaning registry scope = (.ok count : Except Error Json))
    (hstart : start.quotient? = some 0) (hcount : count.quotient? = some (n : ℚ)) :
    ∃ front back,
      (operation "substr" [source, zero, number]).meaning registry scope =
        (.ok (.string front) : Except Error Json) ∧
      (operation "substr" [source, number]).meaning registry scope =
        (.ok (.string back) : Except Error Json) ∧
      front ++ back = text ∧
      text.substring? 0 (some n) = some front ∧ text.substring? n none = some back := by
  have hfirst : position start = .ok 0 := position_of_quotient? (by exact_mod_cast hstart) (by decide)
  have hplace : position count = .ok n := position_of_quotient? hcount hn
  have hnull : count ≠ .null := fun hnull => by
    rw [hnull] at hcount
    cases hcount
  have heager : Operator.substring.isEager := rfl
  refine ⟨takeCount (tailFrom text 0) n, tailFrom text n, ?_, ?_, takeCount_append_tailFrom text n,
    Bytes.substring?_eq text 0 (some n), Bytes.substring?_eq text n none⟩
  · refine (meaning_of_isEager heager rfl (.cons hsource (.cons hzero (.cons hnumber .nil)))).trans ?_
    exact congrArg (Except.map Json.string) (substringOf_some hfirst hplace hnull)
  · refine (meaning_of_isEager heager rfl (.cons hsource (.cons hnumber .nil))).trans ?_
    exact congrArg (Except.map Json.string) (substringOf_none hplace)

/-- A text is split four bytes before its end. -/
theorem substring_split_at_end :
    let front : Expr :=
      .operation "substr" [.var "text" none, .literal (.unsigned 0), .literal (.signed (-4))]
    let back : Expr := .operation "substr" [.var "text" none, .literal (.signed (-4))]
    let scope : Scope := ⟨.object [("text", .string "campaign")], false⟩
    ∃ a b : Bytes, front.meaning .empty scope = (.ok (.string a) : Except Error Json) ∧
      back.meaning .empty scope = (.ok (.string b) : Except Error Json) ∧ a ++ b = "campaign" := by
  intro front back scope
  have htext : (Expr.var "text" none).meaning .empty scope =
      (.ok (.string "campaign") : Except Error Json) := rfl
  have hliteral : ∀ v, (Expr.literal v).meaning .empty scope = (.ok v : Except Error Json) := fun _ => rfl
  have hzero : (Json.unsigned 0).quotient? = some 0 := rfl
  have hcount : (Json.signed (-4)).quotient? = some ((-4 : Int) : ℚ) := rfl
  obtain ⟨a, b, hfront, hback, happend, -, -⟩ :=
    substring_split (by decide) htext (hliteral _) (hliteral _) hzero hcount
  exact ⟨a, b, hfront, hback, happend⟩

end Expr

end CampaignRules
