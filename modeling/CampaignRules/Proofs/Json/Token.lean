import CampaignRules.Json.Printer
import CampaignRules.Json.Token
import CampaignRules.Proofs.Json.Equality
import CampaignRules.Proofs.Number.Bits
import CampaignRules.Proofs.Utf8

/-! # The tokens of a text

A number that a text spells is finite, or it is refused; and a text in quotes is UTF-8, for its
escapes stand for whole characters. -/

namespace CampaignRules.Json

namespace Token

theorem lt_of_hexValue? {b : UInt8} {n : Nat} (hvalue : Bytes.hexValue? b = some n) : b < 0x80 := by
  unfold Bytes.hexValue? Bytes.isDigit at hvalue
  simp only [Bool.and_eq_true, decide_eq_true_eq] at hvalue
  split at hvalue
  · rename_i h
    exact UInt8.lt_of_le_of_lt h.2 (by decide)
  · split at hvalue
    · rename_i h
      exact UInt8.lt_of_le_of_lt h.2 (by decide)
    · split at hvalue
      · rename_i h
        exact UInt8.lt_of_le_of_lt h.2 (by decide)
      · cases hvalue

theorem lt_of_codeUnit? {a b c d : UInt8} {n : Nat} (hunit : codeUnit? a b c d = some n) :
    a < 0x80 ∧ b < 0x80 ∧ c < 0x80 ∧ d < 0x80 := by
  simp only [codeUnit?, Option.bind_eq_bind, Option.bind_eq_some_iff] at hunit
  obtain ⟨_, ha, _, hb, _, hc, _, hd, -⟩ := hunit
  exact ⟨lt_of_hexValue? ha, lt_of_hexValue? hb, lt_of_hexValue? hc, lt_of_hexValue? hd⟩

theorem lt_of_shortEscape? {b c : UInt8} (hescape : shortEscape? b = some c) :
    b < 0x80 ∧ c < 0x80 := by
  unfold shortEscape? at hescape
  simp only [Bool.or_eq_true, decide_eq_true_eq] at hescape
  split at hescape
  · rename_i hself
    cases hescape
    rcases hself with (rfl | rfl) | rfl
    all_goals decide
  · repeat' split at hescape
    all_goals cases hescape
    all_goals
      rename_i hletter
      subst hletter
      decide

/-- The bytes of an escape by a code unit stand between two scalar values. -/
theorem accepts_of_codeUnit? {state : Utf8.State} {a b c d : UInt8} {n : Nat} {rest : Bytes}
    (hunit : codeUnit? a b c d = some n) (hstate : state.IsBounded)
    (hbody : Utf8.accepts state (0x5C :: 0x75 :: a :: b :: c :: d :: rest)) :
    state = .start ∧ Utf8.accepts .start rest := by
  obtain ⟨ha, hb, hc, hd⟩ := lt_of_codeUnit? hunit
  obtain ⟨hstart, hbody⟩ := Utf8.accepts_ascii_cons (by decide) hstate hbody
  have hascii : ∀ x ∈ ([0x75, a, b, c, d] : Bytes), x < 0x80 := by
    simp [ha, hb, hc, hd]
  exact ⟨hstart, (Utf8.accepts_start_append hascii rest).symm.trans hbody⟩

/-- Escapes stand for whole characters, so a text that is UTF-8 is UTF-8 when they are replaced. -/
theorem accepts_of_unescape? {state : Utf8.State} {body s : Bytes} (hstate : state.IsBounded)
    (hbody : Utf8.accepts state body) (hunescape : unescape? body = some s) :
    Utf8.accepts state s := by
  fun_induction unescape? body generalizing state s with
  | case1 =>
      cases hunescape
      exact hbody
  | case2 | case3 | case4 | case6 | case7 | case10 | case11 => cases hunescape
  | case5 =>
      rename_i hhigh _ _ _ _ _ _ _ _ hlow _ _ ih
      obtain ⟨rfl, hpartner⟩ := accepts_of_codeUnit? hhigh hstate hbody
      obtain ⟨-, hafter⟩ := accepts_of_codeUnit? hlow hstate hpartner
      obtain ⟨rest, hrest, rfl⟩ := Option.map_eq_some_iff.1 hunescape
      rw [Utf8.accepts_encode_append]
      exact ih hstate hafter hrest
  | case8 _ _ _ _ _ _ hunit _ _ ih =>
      obtain ⟨rfl, hafter⟩ := accepts_of_codeUnit? hunit hstate hbody
      obtain ⟨rest, hrest, rfl⟩ := Option.map_eq_some_iff.1 hunescape
      rw [Utf8.accepts_encode_append]
      exact ih hstate hafter hrest
  | case9 _ _ _ _ hescape ih =>
      obtain ⟨hletter, hmeant⟩ := lt_of_shortEscape? hescape
      obtain ⟨rfl, hescaped⟩ := Utf8.accepts_ascii_cons (by decide) hstate hbody
      obtain ⟨-, hafter⟩ := Utf8.accepts_ascii_cons hletter hstate hescaped
      obtain ⟨rest, hrest, rfl⟩ := Option.map_eq_some_iff.1 hunescape
      rw [Utf8.accepts_cons, Utf8.State.step_of_ascii hmeant]
      exact ih hstate hafter hrest
  | case12 _ _ _ _ _ ih =>
      obtain ⟨rest, hrest, rfl⟩ := Option.map_eq_some_iff.1 hunescape
      rw [Utf8.accepts_cons, Option.any_eq_true] at hbody ⊢
      obtain ⟨next, hstep, hbody⟩ := hbody
      exact ⟨next, hstep, ih (Utf8.State.isBounded_of_step hstep) hbody hrest⟩

/-- A scalar that a word can spell. If it is a float, it is finite. -/
def IsSpelled : Json → Prop
  | .null | .bool _ | .unsigned _ | .signed _ => True
  | .float x => ∃ negative m q, Binary64.ofFloat x = .finite negative m q
  | _ => False

theorem IsSpelled.nanFree {v : Json} (hv : IsSpelled v) : v.NanFree := by
  cases v with
  | float x =>
      obtain ⟨_, _, _, hfinite⟩ := hv
      rw [Json.NanFree]
      exact Binary64.isNaN_of_finite hfinite
  | string | array | object => cases hv
  | _ => trivial

theorem IsSpelled.isUtf8 {v : Json} (hv : IsSpelled v) : v.isUtf8 := by
  cases v with
  | string | array | object => cases hv
  | _ => rfl

/-- Words spell scalars, and all texts are UTF-8. -/
def IsSound : Token → Prop
  | .scalar v => IsSpelled v
  | .text s => Utf8.isValid s
  | _ => True

theorem isSound_ofQuoted (body : Bytes) : (ofQuoted body).IsSound := by
  unfold ofQuoted
  split
  · rename_i hvalid
    split
    · rename_i hunescape
      exact accepts_of_unescape? trivial hvalid hunescape
    · trivial
  · trivial

theorem isSound_ofFloat (x : Float) : (ofFloat x).IsSound := by
  unfold ofFloat
  split
  · rename_i hfinite
    exact ⟨_, _, _, hfinite⟩
  · trivial

theorem isSound_of_whole? {negative : Bool} {digits : Bytes} {v : Json}
    (hwhole : whole? negative digits = some v) : (scalar v).IsSound := by
  unfold whole? at hwhole
  dsimp only at hwhole
  repeat' split at hwhole
  all_goals cases hwhole
  all_goals trivial

theorem isSound_of_named? {word rest : Bytes} {v : Json} (hnamed : named? word = some (v, rest)) :
    (scalar v).IsSound := by
  obtain ⟨⟨name, found⟩, hmem, hfound⟩ := List.exists_of_findSome?_eq_some hnamed
  simp only [Option.ite_none_right_eq_some, Option.some.injEq, Prod.mk.injEq] at hfound
  obtain ⟨-, rfl, -⟩ := hfound
  simp only [List.mem_cons, Prod.mk.injEq, List.not_mem_nil, or_false] at hmem
  rcases hmem with ⟨-, rfl⟩ | ⟨-, rfl⟩ | ⟨-, rfl⟩
  all_goals trivial

theorem isSound_of_number? {word rest : Bytes} {token : Token}
    (hnumber : number? word = some (token, rest)) : token.IsSound := by
  unfold number? at hnumber
  simp only [Option.bind_eq_bind, Option.bind_eq_some_iff] at hnumber
  obtain ⟨⟨whole, afterWhole⟩, -, ⟨fraction, afterFraction⟩, -, ⟨exponent, last⟩, -, hlast⟩ := hnumber
  dsimp only at hlast
  split at hlast
  · split at hlast
    · rename_i v hwhole
      cases hlast
      exact isSound_of_whole? hwhole
    · cases hlast
      exact isSound_ofFloat _
  · cases hlast
    exact isSound_ofFloat _

theorem isSound_of_scalar? {word rest : Bytes} {token : Token}
    (hscalar : scalar? word = some (token, rest)) : token.IsSound := by
  unfold scalar? at hscalar
  split at hscalar
  · rename_i hnamed
    cases hscalar
    exact isSound_of_named? hnamed
  · exact isSound_of_number? hscalar

theorem isSound_ofWord (word : Bytes) : ∀ token ∈ ofWord word, token.IsSound := by
  unfold ofWord
  split
  · rename_i hscalar
    simpa using isSound_of_scalar? hscalar
  · rename_i hscalar
    simpa [IsSound] using isSound_of_scalar? hscalar
  · simp [IsSound]

theorem isSound_of_punctuation? {b : UInt8} {token : Token} (htoken : punctuation? b = some token) :
    token.IsSound := by
  unfold punctuation? at htoken
  repeat' split at htoken
  all_goals
    cases htoken
    try trivial

theorem isSound_scan (place : Place) (text : Bytes) : ∀ token ∈ scan place text, token.IsSound := by
  fun_induction scan place text with
  | case1 | case7 => exact List.forall_mem_nil _
  | case2 | case12 => exact isSound_ofWord _
  | case3 => exact List.forall_mem_singleton.2 trivial
  | case4 | case6 | case8 | case9 | case11 | case16 =>
      rename_i ih
      exact ih
  | case5 =>
      rename_i ih
      exact List.forall_mem_cons.2 ⟨isSound_ofQuoted _, ih⟩
  | case10 =>
      rename_i htoken ih
      exact List.forall_mem_cons.2 ⟨isSound_of_punctuation? htoken, ih⟩
  | case13 | case14 =>
      rename_i ih
      exact List.forall_mem_append.2 ⟨isSound_ofWord _, ih⟩
  | case15 =>
      rename_i htoken ih
      exact List.forall_mem_append.2
        ⟨isSound_ofWord _, List.forall_mem_cons.2 ⟨isSound_of_punctuation? htoken, ih⟩⟩

theorem isSound_ofText (text : Bytes) : ∀ token ∈ ofText text, token.IsSound := by
  unfold ofText
  split
  all_goals exact isSound_scan _ _

end Token

end CampaignRules.Json
