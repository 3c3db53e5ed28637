import CampaignRules.Json.Parser
import CampaignRules.Proofs.Json.Token

/-! # Where a text ends

A NUL between tokens ends a text. Between quotes it is refused like any control character, and no
reader gets past a token that is broken. So a text reads like what stands before its first NUL, whatever
stands behind. -/

namespace CampaignRules.Json

namespace Token

/-- There is no NUL in an escape by a code unit. -/
theorem zero_mem_of_codeUnit? {a b c d : UInt8} {n : Nat} {rest : Bytes}
    (hunit : codeUnit? a b c d = some n) (hnul : 0 ∈ 0x5C :: 0x75 :: a :: b :: c :: d :: rest) :
    0 ∈ rest := by
  have hzero : ∀ {x : UInt8} {m : Nat}, Bytes.hexValue? x = some m → 0 ≠ x := by
    rintro x m hvalue rfl
    cases hvalue
  simp only [codeUnit?, Option.bind_eq_bind, Option.bind_eq_some_iff] at hunit
  obtain ⟨_, ha, _, hb, _, hc, _, hd, -⟩ := hunit
  simpa [hzero ha, hzero hb, hzero hc, hzero hd] using hnul

/-- Nothing can be made of quotes with a NUL between them. -/
theorem unescape?_of_nul {body : Bytes} (hnul : 0 ∈ body) : unescape? body = none := by
  fun_induction unescape? body with
  | case1 => cases hnul
  | case2 | case3 | case4 | case6 | case7 | case10 | case11 => rfl
  | case5 _ _ _ _ _ hhigh _ _ _ _ _ _ _ _ hlow _ _ ih =>
      rw [ih (zero_mem_of_codeUnit? hlow (zero_mem_of_codeUnit? hhigh hnul)), Option.map_none]
  | case8 _ _ _ _ _ _ hunit _ _ ih => rw [ih (zero_mem_of_codeUnit? hunit hnul), Option.map_none]
  | case9 b rest _ c hescape ih =>
      have hb : 0 ≠ b := by
        rintro rfl
        cases hescape
      rw [ih (by simpa [hb] using hnul), Option.map_none]
  | case12 b rest _ _ hplain ih =>
      have hb : 0 ≠ b := by
        rintro rfl
        exact hplain rfl
      rw [ih (by simpa [hb] using hnul), Option.map_none]

/-- Quotes with a NUL behind the first one are broken, wherever they are closed. -/
theorem scan_quoted_of_nul {read : Bytes} {escaped : Bool} {text : Bytes} (hnul : 0 ∈ read) :
    ∃ left, scan (.quoted read escaped) text = .broken :: left := by
  induction text generalizing read escaped with
  | nil => exact ⟨[], rfl⟩
  | cons b rest ih =>
      rw [scan]
      split
      · exact ih (List.mem_cons_of_mem _ hnul)
      · split
        · refine ⟨scan .between rest, ?_⟩
          rw [ofQuoted, unescape?_of_nul (List.mem_reverse.2 hnul), ite_self]
        · exact ih (List.mem_cons_of_mem _ hnul)

/-- The same tokens are read, or the same ones up to one that is broken. -/
def Alike (tokens others : List Token) : Prop :=
  tokens = others ∨
    ∃ before left left', tokens = before ++ .broken :: left ∧ others = before ++ .broken :: left'

theorem Alike.append {tokens others : List Token} (h : Alike tokens others) (front : List Token) :
    Alike (front ++ tokens) (front ++ others) := by
  obtain rfl | ⟨before, left, left', rfl, rfl⟩ := h
  · exact .inl rfl
  · exact .inr ⟨front ++ before, left, left', by rw [List.append_assoc], by rw [List.append_assoc]⟩

theorem alike_scan_nul (place : Place) (text rest : Bytes) :
    Alike (scan place (text ++ 0 :: rest)) (scan place text) := by
  fun_induction scan place text with
  | case1 | case2 => exact .inl rfl
  | case3 read escaped =>
      have hafter : ∀ escaped', ∃ left, scan (.quoted (0 :: read) escaped') rest = .broken :: left :=
        fun _ => scan_quoted_of_nul List.mem_cons_self
      rw [List.nil_append, scan, if_neg (by decide : ¬(0 : UInt8) = '"'.toUInt8)]
      split
      all_goals
        obtain ⟨left, hleft⟩ := hafter _
        exact .inr ⟨[], left, [], hleft, rfl⟩
  | case4 _ _ _ ih =>
      rw [List.cons_append, scan, if_pos rfl]
      exact ih
  | case5 _ _ _ hescaped ih =>
      rw [List.cons_append, scan, if_neg hescaped, if_pos rfl]
      exact ih.append [_]
  | case6 _ _ _ _ hescaped hquote ih =>
      rw [List.cons_append, scan, if_neg hescaped, if_neg hquote]
      exact ih
  | case7 =>
      rw [List.cons_append, scan, if_pos rfl]
      exact .inl rfl
  | case8 _ _ hnul hblank ih =>
      rw [List.cons_append, scan, if_neg hnul, if_pos hblank]
      exact ih
  | case9 _ hnul hblank ih =>
      rw [List.cons_append, scan, if_neg hnul, if_neg hblank, if_pos rfl]
      exact ih
  | case10 _ _ hnul hblank hquote _ htoken ih =>
      rw [List.cons_append, scan, if_neg hnul, if_neg hblank, if_neg hquote, htoken]
      exact ih.append [_]
  | case11 _ _ hnul hblank hquote htoken ih =>
      rw [List.cons_append, scan, if_neg hnul, if_neg hblank, if_neg hquote, htoken]
      exact ih
  | case12 =>
      rw [List.cons_append, scan, if_pos rfl]
      exact .inl rfl
  | case13 _ _ _ hnul hblank ih =>
      rw [List.cons_append, scan, if_neg hnul, if_pos hblank]
      exact ih.append _
  | case14 _ _ hnul hblank ih =>
      rw [List.cons_append, scan, if_neg hnul, if_neg hblank, if_pos rfl]
      exact ih.append _
  | case15 _ _ _ hnul hblank hquote _ htoken ih =>
      rw [List.cons_append, scan, if_neg hnul, if_neg hblank, if_neg hquote, htoken]
      exact (ih.append [_]).append _
  | case16 _ _ _ hnul hblank hquote htoken ih =>
      rw [List.cons_append, scan, if_neg hnul, if_neg hblank, if_neg hquote, htoken]
      exact ih

theorem alike_ofText_nul (text rest : Bytes) :
    Alike (ofText (text ++ 0 :: rest)) (ofText text) := by
  fun_cases ofText text with
  | case1 after => exact alike_scan_nul .between after rest
  | case2 _ hmark =>
      have hkept : ofText (text ++ 0 :: rest) = scan .between (text ++ 0 :: rest) := by
        refine ofText.eq_2 _ fun after heq => ?_
        match text with
        | [] | [_] | [_, _] => simp at heq
        | a :: b :: c :: before =>
            cases heq
            exact hmark before rfl
      rw [hkept]
      exact alike_scan_nul .between text rest

end Token

namespace Reader

theorem step_broken (reader : Reader) : reader.step .broken = .error .malformed := by
  obtain ⟨expected, frames⟩ := reader
  cases expected with
  | value | itemOrClose | colon | nothing => rfl
  | key | keyOrClose | commaOrClose =>
      rcases frames with _ | ⟨_ | _, _⟩
      all_goals rfl

/-- A reader has its document, or it takes the next token. -/
theorem run_cases (reader : Reader) :
    (∃ document, ∀ tokens, reader.run tokens = .ok (document, tokens)) ∨
      ∀ token rest, reader.run (token :: rest) = (reader.step token).bind (·.run rest) := by
  obtain ⟨expected, frames⟩ := reader
  cases expected with
  | nothing document => exact .inl ⟨document, fun _ => by rw [run]⟩
  | _ =>
      refine .inr fun token rest => ?_
      rw [run]
      · cases step _ token <;> rfl
      · rintro _ _ ⟨⟩

/-- A reader that meets a broken token fails, unless it has its document by then. What is behind the
token makes no difference. -/
theorem run_append_broken (before : List Token) : ∀ reader : Reader,
    (∃ e, ∀ left, reader.run (before ++ .broken :: left) = .error e) ∨
    ∃ document kept, ∀ left,
      reader.run (before ++ .broken :: left) = .ok (document, kept ++ .broken :: left) := by
  induction before with
  | nil =>
      intro reader
      rcases run_cases reader with ⟨document, hdone⟩ | hmore
      · exact .inr ⟨document, [], fun _ => hdone _⟩
      · refine .inl ⟨.malformed, fun left => ?_⟩
        rw [List.nil_append, hmore, step_broken]
        rfl
  | cons token rest ih =>
      intro reader
      rcases run_cases reader with ⟨document, hdone⟩ | hmore
      · exact .inr ⟨document, token :: rest, fun _ => hdone _⟩
      · simp only [List.cons_append, hmore]
        cases reader.step token with
        | ok next => exact ih next
        | error e => exact .inl ⟨e, fun _ => rfl⟩

end Reader

/-- A text ends at its first NUL; what stands behind that is not read. -/
theorem parseRaw_append_nul (text rest : Bytes) : parseRaw (text ++ 0 :: rest) = parseRaw text := by
  obtain heq | ⟨before, left, left', hlong, hshort⟩ := Token.alike_ofText_nul text rest
  · rw [parseRaw, heq, ← parseRaw]
  · rw [parseRaw, parseRaw, hlong, hshort]
    obtain ⟨e, hfails⟩ | ⟨document, kept, hends⟩ := Reader.run_append_broken before .start
    · rw [hfails, hfails]
    · rw [hends, hends]
      cases kept <;> rfl

example : parseRaw (("[7]" : Bytes) ++ 0 :: ("]" : Bytes)) = .ok (.array [.unsigned 7]) := rfl

end CampaignRules.Json
