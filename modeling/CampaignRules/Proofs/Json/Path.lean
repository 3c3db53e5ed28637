import CampaignRules.Json.Coercion
import CampaignRules.Proofs.Bytes

/-! # Dotted paths

A path that was put together with a dot has the segments of its front and then those of its back, so two
paths are followed in a row as one. A path can also be read while it is followed, from one dot to the next.
Every turn of that loop uses up one segment, wherever the dots stand, so the loop stops, and with the value
that the segments lead to. -/

namespace CampaignRules

namespace Bytes

variable {sep : UInt8} {b : Bytes} {k : Nat}

theorem splitOn_ne_nil (sep : UInt8) (b : Bytes) : splitOn sep b ≠ [] := by
  rw [splitOn_eq]
  exact List.cons_ne_nil _ _

theorem splitOn_append (sep : UInt8) (front back : Bytes) :
    splitOn sep (front ++ sep :: back) = splitOn sep front ++ splitOn sep back := by
  induction front with
  | nil => exact if_pos rfl
  | cons b rest ih =>
      rw [List.cons_append, splitOn, splitOn, ih]
      split
      · rfl
      · obtain ⟨piece, pieces, hpieces⟩ := List.exists_cons_of_ne_nil (splitOn_ne_nil sep rest)
        rw [hpieces]
        rfl

theorem splitOn_of_not_mem (hsep : sep ∉ b) : splitOn sep b = [b] := by
  rw [splitOn_eq, cutAt_of_not_mem hsep]
  rfl

theorem length_splitOn (sep : UInt8) (b : Bytes) : (splitOn sep b).length = b.count sep + 1 := by
  induction b with
  | nil => rfl
  | cons head rest ih =>
      rw [splitOn, List.count_cons]
      split
      · rename_i hhead
        rw [if_pos (beq_iff_eq.2 hhead), List.length_cons, ih]
      · rename_i hhead
        rw [if_neg (mt beq_iff_eq.1 hhead), Nat.add_zero, ← ih]
        obtain ⟨piece, pieces, hpieces⟩ := List.exists_cons_of_ne_nil (splitOn_ne_nil sep rest)
        rw [hpieces]
        rfl

/-- The first piece ends where the separator is first found. -/
theorem splitOn_of_idxOf? (hfirst : b.idxOf? sep = some k) :
    splitOn sep b = b.take k :: splitOn sep (b.drop (k + 1)) := by
  obtain ⟨hlt, hsep, hbefore⟩ := List.idxOf?_eq_some_iff.1 hfirst
  have hfront : sep ∉ b.take k := fun hmem => by
    obtain ⟨i, hi, hat⟩ := List.getElem_of_mem hmem
    rw [List.length_take] at hi
    rw [List.getElem_take] at hat
    exact hbefore i (by omega) hat
  have hparts : b = b.take k ++ sep :: b.drop (k + 1) := by
    rw [← hsep, ← List.drop_eq_getElem_cons hlt, List.take_append_drop]
  conv_lhs => rw [hparts, splitOn_append, splitOn_of_not_mem hfront]
  rfl

end Bytes

namespace Json

theorem follow?_append (front back : List Bytes) (data : Json) :
    data.follow? (front ++ back) = (data.follow? front).bind (follow? back) := by
  induction front generalizing data with
  | nil => rfl
  | cons segment rest ih =>
      rw [List.cons_append, follow?, follow?, Option.bind_assoc]
      exact Option.bind_congr fun value _ => ih value

theorem resolvePath?_append (data : Json) (p q : Bytes) :
    data.resolvePath? (p ++ "." ++ q) = (data.resolvePath? p).bind fun value => value.resolvePath? q := by
  have hdot : p ++ "." ++ q = p ++ '.'.toUInt8 :: q := List.append_cons p _ q |>.symm
  rw [hdot, resolvePath?, Bytes.splitOn_append, follow?_append]
  rfl

/-- Behind a dot at the end there is one more name, which is empty. -/
example : (Json.object [("town", .object [("", .bool true)])]).resolvePath? "town." = some (.bool true) := by
  rfl

/-- A numeral leads to the item at its position, however many zeros stand in front. No item is at a position
that is too large. -/
theorem resolvePath?_paddedDecimal (items : List Json) (width position : Nat) :
    (Json.array items).resolvePath? (Bytes.paddedDecimal width position) = items[position]? := by
  have hdigits : ∀ b ∈ Bytes.paddedDecimal width position, Bytes.isDigit b :=
    fun _ hb => Bytes.isDigit_of_mem_paddedDecimal hb
  have hdot : '.'.toUInt8 ∉ Bytes.paddedDecimal width position :=
    fun hmem => absurd (hdigits _ hmem) (by decide)
  have hempty : (Bytes.paddedDecimal width position).isEmpty = false :=
    List.isEmpty_eq_false_iff.2 (Bytes.paddedDecimal_ne_nil width position)
  rw [resolvePath?, Bytes.splitOn_of_not_mem hdot, follow?, step?, hempty, List.all_eq_true.2 hdigits,
    Bytes.decimalValue_paddedDecimal]
  exact Option.bind_fun_some _

/-- A path is being followed: a value was reached, and the next segment begins at a position. -/
structure Descent where
  value : Json
  start : Nat

namespace Descent

/-- A turn of the loop is the last one, with a value or with nothing found, or another one follows. -/
inductive Turn where
  | last (found : Option Json)
  | onward (next : Descent)

/-- Looks for the next dot, and looks up the segment before it. Without another dot the segment goes to the
end of the path and is the last one. -/
def turn (path : Bytes) (d : Descent) : Turn :=
  if path.length < d.start then .last (some d.value)
  else
    let rest := path.drop d.start
    let dot := rest.idxOf? '.'.toUInt8
    match d.value.step? (rest.take (dot.getD rest.length)), dot with
    | none, _ => .last none
    | some value, none => .last (some value)
    | some value, some k => .onward ⟨value, d.start + k + 1⟩

/-- The loop stops after so many turns, with what was found. -/
inductive Ends (path : Bytes) : Descent → Nat → Option Json → Prop where
  | last {d : Descent} {found : Option Json} (hturn : d.turn path = .last found) : Ends path d 1 found
  | onward {d next : Descent} {turns : Nat} {found : Option Json} (hturn : d.turn path = .onward next)
      (hends : Ends path next turns found) : Ends path d (turns + 1) found

variable {path : Bytes} {d : Descent}

theorem Ends.unique {m n : Nat} {found other : Option Json} (h : Ends path d m found)
    (h' : Ends path d n other) : m = n ∧ found = other := by
  induction h generalizing n with
  | last hturn =>
      cases h' with
      | last hturn' =>
          rw [hturn, Turn.last.injEq] at hturn'
          exact ⟨rfl, hturn'⟩
      | onward hturn' _ => cases hturn.symm.trans hturn'
  | onward hturn _ ih =>
      cases h' with
      | last hturn' => cases hturn.symm.trans hturn'
      | onward hturn' hends' =>
          cases hturn.symm.trans hturn'
          obtain ⟨rfl, rfl⟩ := ih hends'
          exact ⟨rfl, rfl⟩

/-- Without another dot the loop stops with what the last segment leads to. -/
theorem turn_of_idxOf?_none (hstart : d.start ≤ path.length)
    (hdot : (path.drop d.start).idxOf? '.'.toUInt8 = none) :
    d.turn path = .last (d.value.step? (path.drop d.start)) := by
  rw [turn, if_neg (Nat.not_lt.2 hstart)]
  dsimp only
  rw [hdot, Option.getD_none, List.take_length]
  cases d.value.step? (path.drop d.start) with
  | none => rfl
  | some value => rfl

theorem turn_of_idxOf?_some {k : Nat} (hstart : d.start ≤ path.length)
    (hdot : (path.drop d.start).idxOf? '.'.toUInt8 = some k) :
    d.turn path = ((d.value.step? ((path.drop d.start).take k)).elim (.last none)
      fun value => .onward ⟨value, d.start + k + 1⟩) := by
  rw [turn, if_neg (Nat.not_lt.2 hstart)]
  dsimp only
  rw [hdot, Option.getD_some]
  cases d.value.step? ((path.drop d.start).take k) with
  | none => rfl
  | some value => rfl

/-- One turn for each segment at most, and what the segments lead to. -/
theorem exists_ends {segments : List Bytes} (hstart : d.start ≤ path.length)
    (hsegments : Bytes.splitOn '.'.toUInt8 (path.drop d.start) = segments) :
    ∃ turns ≤ segments.length, Ends path d turns (d.value.follow? segments) := by
  -- On the segments that are left: a turn looks up the first, and stops or leaves the others.
  induction segments generalizing d with
  | nil => exact absurd hsegments (Bytes.splitOn_ne_nil _ _)
  | cons segment rest ih =>
      cases hdot : (path.drop d.start).idxOf? '.'.toUInt8 with
      | none =>
          rw [Bytes.splitOn_of_not_mem (List.idxOf?_eq_none_iff.1 hdot)] at hsegments
          obtain ⟨rfl, rfl⟩ := List.cons.inj hsegments
          refine ⟨1, le_rfl, .last ?_⟩
          rw [turn_of_idxOf?_none hstart hdot, follow?]
          exact congrArg Turn.last (Option.bind_fun_some _).symm
      | some k =>
          rw [Bytes.splitOn_of_idxOf? hdot] at hsegments
          obtain ⟨rfl, hrest⟩ := List.cons.inj hsegments
          have hturn := turn_of_idxOf?_some hstart hdot
          rw [follow?]
          cases hstep : d.value.step? ((path.drop d.start).take k) with
          | none =>
              rw [hstep] at hturn
              exact ⟨1, Nat.succ_le_succ (Nat.zero_le _), .last hturn⟩
          | some value =>
              rw [hstep] at hturn
              obtain ⟨hlt, -⟩ := List.idxOf?_eq_some_iff.1 hdot
              rw [List.length_drop] at hlt
              rw [List.drop_drop, ← Nat.add_assoc] at hrest
              have hnext : d.start + k + 1 ≤ path.length := by omega
              obtain ⟨turns, hle, hends⟩ := @ih ⟨value, d.start + k + 1⟩ hnext hrest
              exact ⟨turns + 1, Nat.succ_le_succ hle, .onward hturn hends⟩

end Descent

/-- What a path leads to from a value, the back of the path leads to from what its front leads to, wherever
the path is cut at a dot. The loop over the positions of a path stops on every path, in one way only, with
what the path leads to, and takes at most one turn more than there are dots. A numeral leads to the item at
its position, and nowhere if it is too large. -/
theorem path_resolution_composes (data : Json) (p q : Bytes) :
    (∀ value, data.resolvePath? (p ++ "." ++ q) = some value ↔
      ∃ between, data.resolvePath? p = some between ∧ between.resolvePath? q = some value) ∧
    (∃ turns ≤ p.count '.'.toUInt8 + 1, ∀ n found,
      Descent.Ends p ⟨data, 0⟩ n found ↔ n = turns ∧ found = data.resolvePath? p) ∧
    ∀ items width position,
      (Json.array items).resolvePath? (Bytes.paddedDecimal width position) = items[position]? := by
  refine ⟨fun value => ?_, ?_, resolvePath?_paddedDecimal⟩
  · rw [resolvePath?_append, Option.bind_eq_some_iff]
  · have hstart : (⟨data, 0⟩ : Descent).start ≤ p.length := Nat.zero_le _
    obtain ⟨turns, hle, hends⟩ := Descent.exists_ends hstart rfl
    rw [List.drop_zero, Bytes.length_splitOn] at hle
    refine ⟨turns, hle, fun n found => ⟨fun h => h.unique hends, ?_⟩⟩
    rintro ⟨rfl, rfl⟩
    exact hends

end Json

end CampaignRules
