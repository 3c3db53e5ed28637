import CampaignRules.Proofs.Json.Number
import CampaignRules.Proofs.Json.Reading

/-! # What is written is read again

The tokens of a written value are those of the value itself, and the reader makes that value of
them. Two kinds of number come back as something else: a signed number that is not negative as an
unsigned one, and what is no number as null. -/

namespace CampaignRules.Json

namespace Token

theorem unescape?_unit {a b c d : UInt8} {n : Nat} (rest : Bytes)
    (hunit : codeUnit? a b c d = some n) (hlow : isLowSurrogate n = false)
    (hhigh : isHighSurrogate n = false) :
    unescape? (0x5C :: 0x75 :: a :: b :: c :: d :: rest) =
      (unescape? rest).map (Utf8.encode (Char.ofNat n) ++ ·) := by
  rw [unescape?, hunit]
  simp only [hlow, hhigh, Bool.false_eq_true, if_false]

theorem unescape?_cons {b : UInt8} (rest : Bytes) (hcontrol : ¬b < 0x20) (hescape : b ≠ 0x5C) :
    unescape? (b :: rest) = (unescape? rest).map (b :: ·) := by
  rw [unescape?]
  · simp [hcontrol, hescape]
  · exact fun _ _ _ _ _ h _ => hescape h
  · exact fun _ _ h _ => hescape h

theorem unescape?_short {b c : UInt8} (rest : Bytes) (hb : b ≠ 0x75)
    (hescape : shortEscape? b = some c) :
    unescape? (0x5C :: b :: rest) = (unescape? rest).map (c :: ·) := by
  rw [unescape?]
  · simp [hescape]
  · exact fun _ _ _ _ _ h _ => hb h

/-- What is written for a control character without a letter is its code unit. -/
theorem codeUnit?_hexDigit : ∀ b : UInt8, b < 0x20 →
    codeUnit? '0'.toUInt8 '0'.toUInt8 (Bytes.hexDigit (b.toNat / 16)) (Bytes.hexDigit (b.toNat % 16)) =
      some b.toNat ∧ isLowSurrogate b.toNat = false ∧ isHighSurrogate b.toNat = false ∧
      Utf8.encode (Char.ofNat b.toNat) = [b] :=
  Bytes.forall_byte (by decide +kernel)

end Token

/-- A byte is escaped by a letter or by its code unit, or it stands for itself. -/
theorem escapeByte_cases (b : UInt8) :
    (∃ letter, escapeByte b = [0x5C, letter] ∧ letter ≠ 0x75 ∧ Token.shortEscape? letter = some b) ∨
    (b < 0x20 ∧ escapeByte b = [0x5C, 0x75, '0'.toUInt8, '0'.toUInt8, Bytes.hexDigit (b.toNat / 16),
      Bytes.hexDigit (b.toNat % 16)]) ∨
    (¬b < 0x20 ∧ b ≠ 0x5C ∧ b ≠ '"'.toUInt8 ∧ escapeByte b = [b]) := by
  unfold escapeByte
  split
  · rename_i h
    exact .inl ⟨_, rfl, by decide, by rw [h]; rfl⟩
  rename_i hquote
  split
  · rename_i h
    exact .inl ⟨_, rfl, by decide, by rw [h]; rfl⟩
  rename_i hescape
  iterate 5
    split
    · rename_i h
      exact .inl ⟨_, rfl, by decide, by rw [h]; rfl⟩
  split
  · rename_i h
    exact .inr (.inl ⟨h, rfl⟩)
  · rename_i hcontrol
    exact .inr (.inr ⟨hcontrol, hescape, hquote, rfl⟩)

namespace Token

/-- An escaped byte is read as itself. -/
theorem unescape?_escapeByte (b : UInt8) (rest : Bytes) :
    unescape? (escapeByte b ++ rest) = (unescape? rest).map (b :: ·) := by
  rcases escapeByte_cases b with ⟨letter, heq, hletter, hshort⟩ | ⟨hcontrol, heq⟩ |
    ⟨hcontrol, hescape, -, heq⟩
  · rw [heq]
    exact unescape?_short rest hletter hshort
  · obtain ⟨hunit, hlow, hhigh, hencode⟩ := codeUnit?_hexDigit b hcontrol
    rw [heq]
    refine (unescape?_unit rest hunit hlow hhigh).trans ?_
    rw [hencode]
    rfl
  · rw [heq]
    exact unescape?_cons rest hcontrol hescape

theorem unescape?_flatMap (s : Bytes) : unescape? (s.flatMap escapeByte) = some s := by
  induction s with
  | nil => rfl
  | cons b rest ih => rw [List.flatMap_cons, unescape?_escapeByte, ih, Option.map_some]

theorem scan_quoted_append {text : Bytes} (htext : ∀ b ∈ text, b ≠ 0x5C ∧ b ≠ '"'.toUInt8)
    (read rest : Bytes) :
    scan (.quoted read false) (text ++ rest) = scan (.quoted (text.reverse ++ read) false) rest := by
  induction text generalizing read with
  | nil => rfl
  | cons b more ih =>
      obtain ⟨⟨hescape, hquote⟩, hmore⟩ := List.forall_mem_cons.1 htext
      have hslash : decide (b = '\\'.toUInt8) = false := decide_eq_false hescape
      rw [List.cons_append, scan, if_neg Bool.false_ne_true, if_neg hquote, hslash, ih hmore,
        List.reverse_cons, List.append_assoc, List.singleton_append]

theorem scan_escaped (b : UInt8) (read rest : Bytes) :
    scan (.quoted read false) (0x5C :: b :: rest) = scan (.quoted (b :: 0x5C :: read) false) rest := by
  rw [scan, if_neg Bool.false_ne_true, if_neg (by decide), scan]
  rfl

theorem hexDigit_ne (b : UInt8) :
    ∀ c ∈ ['0'.toUInt8, '0'.toUInt8, Bytes.hexDigit (b.toNat / 16), Bytes.hexDigit (b.toNat % 16)],
      c ≠ 0x5C ∧ c ≠ '"'.toUInt8 := by
  have hhex : ∀ b : UInt8, ['0'.toUInt8, '0'.toUInt8, Bytes.hexDigit (b.toNat / 16),
      Bytes.hexDigit (b.toNat % 16)].all fun c => c ≠ 0x5C ∧ c ≠ '"'.toUInt8 :=
    Bytes.forall_byte (by decide +kernel)
  exact fun c hc => of_decide_eq_true (List.all_eq_true.1 (hhex b) c hc)

/-- No byte of an escape ends the text. -/
theorem scan_escapeByte (b : UInt8) (read rest : Bytes) :
    scan (.quoted read false) (escapeByte b ++ rest) =
      scan (.quoted ((escapeByte b).reverse ++ read) false) rest := by
  rcases escapeByte_cases b with ⟨letter, heq, -, -⟩ | ⟨-, heq⟩ | ⟨-, hescape, hquote, heq⟩
  · rw [heq]
    exact scan_escaped letter read rest
  · rw [heq]
    exact (scan_escaped 0x75 read _).trans (scan_quoted_append (hexDigit_ne b) _ rest)
  · rw [heq]
    exact scan_quoted_append (by simp [hescape, hquote]) read rest

theorem scan_flatMap (s read rest : Bytes) :
    scan (.quoted read false) (s.flatMap escapeByte ++ rest) =
      scan (.quoted ((s.flatMap escapeByte).reverse ++ read) false) rest := by
  induction s generalizing read with
  | nil => rfl
  | cons b more ih =>
      rw [List.flatMap_cons, List.append_assoc, scan_escapeByte, ih, List.reverse_append,
        List.append_assoc]

/-- Escapes are ASCII, and what is not escaped stays. -/
theorem accepts_flatMap {state : Utf8.State} {s : Bytes} (hstate : state.IsBounded)
    (hs : Utf8.accepts state s) : Utf8.accepts state (s.flatMap escapeByte) := by
  induction s generalizing state with
  | nil => exact hs
  | cons b rest ih =>
      -- an escape may stand only where the escaped byte may, which is between two scalar values
      have hascii : ∀ b : UInt8, b < 0x80 → (escapeByte b).all (· < 0x80) :=
        Bytes.forall_byte (by decide +kernel)
      have hhigh : ∀ b : UInt8, ¬b < 0x80 → escapeByte b = [b] :=
        Bytes.forall_byte (by decide +kernel)
      rw [List.flatMap_cons]
      by_cases hb : b < 0x80
      · obtain ⟨rfl, hrest⟩ := Utf8.accepts_ascii_cons hb hstate hs
        have hescaped : ∀ c ∈ escapeByte b, c < 0x80 := fun c hc =>
          of_decide_eq_true (List.all_eq_true.1 (hascii b hb) c hc)
        rw [Utf8.accepts_start_append hescaped]
        exact ih hstate hrest
      · rw [Utf8.accepts_cons, Option.any_eq_true] at hs
        obtain ⟨next, hstep, hrest⟩ := hs
        rw [hhigh b hb, List.singleton_append, Utf8.accepts_cons, hstep, Option.any_some]
        exact ih (Utf8.State.isBounded_of_step hstep) hrest

theorem ofQuoted_flatMap {s : Bytes} (hs : Utf8.isValid s) : ofQuoted (s.flatMap escapeByte) = .text s := by
  have hvalid : Utf8.isValid (s.flatMap escapeByte) := accepts_flatMap trivial hs
  rw [ofQuoted, if_pos hvalid, unescape?_flatMap]

/-- A text is cut at its quotes. -/
theorem scan_renderText {s : Bytes} (hs : Utf8.isValid s) (rest : Bytes) :
    scan .between (renderText s ++ rest) = .text s :: scan .between rest := by
  have hquote : Bytes.ofString "\"" = ['"'.toUInt8] := rfl
  rw [renderText, hquote, List.append_assoc, List.append_assoc, List.singleton_append,
    List.singleton_append, scan, if_neg (by decide), if_neg (by decide), if_pos rfl, scan_flatMap,
    List.append_nil, scan, if_neg Bool.false_ne_true, if_pos rfl, List.reverse_reverse,
    ofQuoted_flatMap hs]

/-- The text does not go on with the same word. -/
def EndsWord (rest : Bytes) : Prop :=
  ∀ b ∈ rest.head?, isPlain b = false

theorem isPlain_iff {b : UInt8} :
    isPlain b ↔ b ≠ 0 ∧ isBlank b = false ∧ b ≠ '"'.toUInt8 ∧ punctuation? b = none := by
  simp [isPlain, and_assoc]

theorem scan_word_append {word : Bytes} (hword : ∀ b ∈ word, isPlain b) (read rest : Bytes) :
    scan (.word read) (word ++ rest) = scan (.word (word.reverse ++ read)) rest := by
  induction word generalizing read with
  | nil => rfl
  | cons b more ih =>
      obtain ⟨hb, hmore⟩ := List.forall_mem_cons.1 hword
      obtain ⟨hnul, hblank, hquote, hpunctuation⟩ := isPlain_iff.1 hb
      rw [List.cons_append, scan, if_neg hnul, hblank, if_neg Bool.false_ne_true, if_neg hquote,
        hpunctuation]
      rw [ih hmore, List.reverse_cons, List.append_assoc, List.singleton_append]

/-- A word is cut off where it ends. -/
theorem scan_word_of_endsWord {read rest : Bytes} (hrest : EndsWord rest) :
    scan (.word read) rest = ofWord read.reverse ++ scan .between rest := by
  cases rest with
  | nil => rw [scan, scan, List.append_nil]
  | cons b more =>
      have hb : isPlain b = false := hrest b rfl
      rw [scan, scan]
      split
      · rw [List.append_nil]
      split
      · rfl
      · split
        · rfl
        · cases hpunctuation : punctuation? b with
          | some token => rfl
          | none => simp_all [isPlain]

theorem scan_spells {word rest : Bytes} {v : Json} (hword : Spells word v) (hrest : EndsWord rest) :
    scan .between (word ++ rest) = .scalar v :: scan .between rest := by
  obtain ⟨b, more, rfl⟩ := List.exists_cons_of_ne_nil hword.ne_nil
  obtain ⟨hb, hmore⟩ := List.forall_mem_cons.1 hword.plain
  obtain ⟨hnul, hblank, hquote, hpunctuation⟩ := isPlain_iff.1 hb
  have hread : (more.reverse ++ [b]).reverse = b :: more := by simp
  rw [List.cons_append, scan, if_neg hnul, hblank, if_neg Bool.false_ne_true, if_neg hquote,
    hpunctuation]
  rw [scan_word_append hmore, scan_word_of_endsWord hrest, hread, hword.token]
  rfl

end Token

/-! ### Values that are read again -/

mutual

/-- What is read for a value that was written. -/
def reread : Json → Json
  | .signed n => if 0 ≤ n.toInt then .unsigned n.toInt.toNat.toUInt64 else .signed n
  | .float x =>
    match Binary64.ofFloat x with
    | .finite .. => .float x
    | _ => .null
  | .array items => .array (rereadItems items)
  | .object members => .object (rereadMembers members)
  | v => v

def rereadItems : List Json → List Json
  | [] => []
  | v :: rest => reread v :: rereadItems rest

def rereadMembers : List (Bytes × Json) → List (Bytes × Json)
  | [] => []
  | (k, v) :: rest => (k, reread v) :: rereadMembers rest

end

mutual

/-- The tokens that spell a value. -/
def tokens : Json → List Token
  | .string s => [.text s]
  | .array items => .openArray :: (itemTokens items ++ [.closeArray])
  | .object members => .openObject :: (memberTokens members ++ [.closeObject])
  | v => [.scalar v]

def itemTokens : List Json → List Token
  | [] => []
  | [v] => tokens v
  | v :: rest => tokens v ++ .comma :: itemTokens rest

def memberTokens : List (Bytes × Json) → List Token
  | [] => []
  | [(k, v)] => .text k :: .colon :: tokens v
  | (k, v) :: rest => .text k :: .colon :: (tokens v ++ .comma :: memberTokens rest)

end

/-- The values that are written as one word. -/
def isWord : Json → Bool
  | .string _ | .array _ | .object _ => false
  | _ => true

section

open Token

variable {rest : Bytes}

theorem spells_null : Spells (Bytes.ofString "null") .null :=
  ⟨by decide, List.all_eq_true.1 rfl, rfl⟩

theorem spells_bool (b : Bool) : Spells (render (.bool b)) (.bool b) := by
  cases b with
  | true => exact ⟨by decide, List.all_eq_true.1 rfl, rfl⟩
  | false => exact ⟨by decide, List.all_eq_true.1 rfl, rfl⟩

/-- A sign is written for negative numbers only. -/
theorem spells_signed (n : Int64) : Spells (render (.signed n)) (reread (.signed n)) := by
  have hlow := n.le_toInt
  have hhigh := n.toInt_lt
  have hback : Int64.ofInt n.toInt = n := Int64.ofInt_toInt n
  rw [render, reread]
  cases hn : n.toInt with
  | ofNat k =>
      have hcast : Int.ofNat k = (k : Int) := rfl
      have hk : 0 ≤ Int.ofNat k := Int.natCast_nonneg k
      rw [if_pos hk]
      exact spells_decimal (by omega)
  | negSucc k =>
      rw [if_neg (by omega), ← hback, hn]
      exact spells_negative (by omega)

theorem spells_float_reread (x : Float) : Spells (render (.float x)) (reread (.float x)) := by
  rw [render, reread]
  cases hx : Binary64.ofFloat x with
  | finite negative m q => exact spells_renderFloat hx
  | nan =>
      rw [renderFloat, hx]
      exact spells_null
  | infinity negative =>
      rw [renderFloat, hx]
      exact spells_null

theorem spells_render : ∀ {v : Json}, v.isWord → Spells (render v) (reread v)
  | .null, _ => spells_null
  | .bool b, _ => spells_bool b
  | .unsigned n, _ => by
      have hspells := spells_decimal n.toNat_lt
      rwa [Nat.toUInt64, UInt64.ofNat_toNat] at hspells
  | .signed n, _ => spells_signed n
  | .float x, _ => spells_float_reread x

theorem tokens_reread {v : Json} (hv : v.isWord) : tokens (reread v) = [.scalar (reread v)] := by
  cases v with
  | signed n =>
      rw [reread]
      split <;> rfl
  | float x =>
      rw [reread]
      cases Binary64.ofFloat x <;> rfl
  | string | array | object => cases hv
  | _ => rfl

theorem scan_render_of_isWord {v : Json} (hv : v.isWord) (hrest : EndsWord rest) :
    scan .between (render v ++ rest) = tokens (reread v) ++ scan .between rest := by
  rw [tokens_reread hv]
  exact scan_spells (spells_render hv) hrest

theorem scan_punctuation {b : UInt8} (token : Token) (hblank : Token.isBlank b = false)
    (hquote : b ≠ '"'.toUInt8) (htoken : punctuation? b = some token) :
    scan .between (b :: rest) = token :: scan .between rest := by
  have hnul : b ≠ 0 := by
    rintro rfl
    cases htoken
  rw [scan, if_neg hnul, hblank, if_neg Bool.false_ne_true, if_neg hquote, htoken]

/-- A punctuation mark ends a word. -/
theorem endsWord_cons {b : UInt8} (hb : isPlain b = false) : EndsWord (b :: rest) := by
  rintro _ ⟨⟩
  exact hb

/-! A written value, with each punctuation mark as a byte of its own. -/

theorem render_array (items : List Json) :
    render (.array items) = '['.toUInt8 :: (renderItems items ++ [']'.toUInt8]) :=
  rfl

theorem render_object (members : Members) :
    render (.object members) = '\x7b'.toUInt8 :: (renderMembers members ++ ['\x7d'.toUInt8]) :=
  rfl

theorem renderItems_cons (v w : Json) (more : List Json) :
    renderItems (v :: w :: more) = render v ++ ','.toUInt8 :: renderItems (w :: more) :=
  List.append_assoc (render v) _ _

theorem renderMembers_singleton (k : Bytes) (v : Json) :
    renderMembers [(k, v)] = renderText k ++ ':'.toUInt8 :: render v :=
  List.append_assoc (renderText k) _ _

theorem renderMembers_cons (k : Bytes) (v : Json) (member : Bytes × Json) (more : Members) :
    renderMembers ((k, v) :: member :: more) =
      renderText k ++ ':'.toUInt8 :: (render v ++ ','.toUInt8 :: renderMembers (member :: more)) := by
  have hcolon : Bytes.ofString ":" = [':'.toUInt8] := rfl
  have hcomma : Bytes.ofString "," = [','.toUInt8] := rfl
  simp [renderMembers, hcolon, hcomma]

mutual

/-- A written value is cut into the tokens of what is read for it. -/
theorem scan_render : ∀ {v : Json} {rest : Bytes}, v.isUtf8 → EndsWord rest →
    scan .between (render v ++ rest) = tokens (reread v) ++ scan .between rest
  | .null, _, _, hrest | .bool _, _, _, hrest | .unsigned _, _, _, hrest
  | .signed _, _, _, hrest | .float _, _, _, hrest => scan_render_of_isWord rfl hrest
  | .string s, _, hs, _ => scan_renderText hs _
  | .array items, rest, hitems, _ => by
      -- what stands behind an item is a punctuation mark, which ends its last word
      rw [render_array, List.cons_append, List.append_assoc, List.singleton_append,
        scan_punctuation .openArray rfl (by decide) rfl,
        scan_renderItems hitems (endsWord_cons rfl),
        scan_punctuation .closeArray rfl (by decide) rfl]
      simp only [reread, tokens, List.cons_append, List.append_assoc, List.nil_append]
  | .object members, rest, hmembers, _ => by
      rw [render_object, List.cons_append, List.append_assoc, List.singleton_append,
        scan_punctuation .openObject rfl (by decide) rfl,
        scan_renderMembers hmembers (endsWord_cons rfl),
        scan_punctuation .closeObject rfl (by decide) rfl]
      simp only [reread, tokens, List.cons_append, List.append_assoc, List.nil_append]

theorem scan_renderItems : ∀ {items : List Json} {rest : Bytes}, itemsUtf8 items → EndsWord rest →
    scan .between (renderItems items ++ rest) = itemTokens (rereadItems items) ++ scan .between rest
  | [], _, _, _ => rfl
  | [v], rest, h, hrest => by
      rw [itemsUtf8, Bool.and_eq_true] at h
      exact scan_render h.1 hrest
  | v :: w :: more, rest, h, hrest => by
      rw [itemsUtf8, Bool.and_eq_true] at h
      rw [renderItems_cons, List.append_assoc, List.cons_append, scan_render h.1 (endsWord_cons rfl),
        scan_punctuation .comma rfl (by decide) rfl, scan_renderItems h.2 hrest]
      simp only [rereadItems, itemTokens, List.append_assoc, List.cons_append]

theorem scan_renderMembers : ∀ {members : Members} {rest : Bytes}, membersUtf8 members →
    EndsWord rest → scan .between (renderMembers members ++ rest) =
      memberTokens (rereadMembers members) ++ scan .between rest
  | [], _, _, _ => rfl
  | [(k, v)], rest, h, hrest => by
      rw [membersUtf8, Bool.and_eq_true, Bool.and_eq_true] at h
      rw [renderMembers_singleton, List.append_assoc, List.cons_append, scan_renderText h.1.1,
        scan_punctuation .colon rfl (by decide) rfl, scan_render h.1.2 hrest]
      rfl
  | (k, v) :: member :: more, rest, h, hrest => by
      rw [membersUtf8, Bool.and_eq_true, Bool.and_eq_true] at h
      rw [renderMembers_cons, List.append_assoc, List.cons_append, List.append_assoc,
        List.cons_append, scan_renderText h.1.1, scan_punctuation .colon rfl (by decide) rfl,
        scan_render h.1.2 (endsWord_cons rfl), scan_punctuation .comma rfl (by decide) rfl,
        scan_renderMembers h.2 hrest]
      simp only [rereadMembers, memberTokens, List.append_assoc, List.cons_append]

end

end

namespace Reader

/-- The first item of an array begins as any value does. -/
theorem run_itemOrClose {items : List Json} (hne : items ≠ []) (frames : List Frame)
    (rest : List Token) :
    run ⟨.itemOrClose, frames⟩ (itemTokens items ++ rest) =
      run ⟨.value, frames⟩ (itemTokens items ++ rest) := by
  obtain ⟨v, more, rfl⟩ := List.exists_cons_of_ne_nil hne
  cases more <;> cases v <;> rfl

theorem run_keyOrClose {members : Members} (hne : members ≠ []) (frames : List Frame)
    (rest : List Token) :
    run ⟨.keyOrClose, frames⟩ (memberTokens members ++ rest) =
      run ⟨.key, frames⟩ (memberTokens members ++ rest) := by
  obtain ⟨member, more, rfl⟩ := List.exists_cons_of_ne_nil hne
  cases more <;> rfl

/-- A key and the colon behind it. -/
theorem run_key (k key : Bytes) (read : Members) (frames : List Frame) (rest : List Token) :
    run ⟨.key, .object read key :: frames⟩ (.text k :: .colon :: rest) =
      run ⟨.value, .object read k :: frames⟩ rest :=
  rfl

mutual

/-- The tokens of a value are read as that value. -/
theorem run_tokens : ∀ (v : Json) (frames : List Frame) (rest : List Token),
    run ⟨.value, frames⟩ (tokens v ++ rest) = run (complete v frames) rest
  | .null, _, _ | .bool _, _, _ | .unsigned _, _, _ | .signed _, _, _ | .float _, _, _
  | .string _, _, _ => rfl
  | .array items, frames, rest => by
      by_cases hne : items = []
      · rw [hne]
        rfl
      · rw [tokens, List.cons_append, List.append_assoc, List.singleton_append]
        exact (run_itemOrClose hne _ _).trans (run_itemTokens items hne [] frames rest)
  | .object members, frames, rest => by
      by_cases hne : members = []
      · rw [hne]
        rfl
      · rw [tokens, List.cons_append, List.append_assoc, List.singleton_append]
        exact (run_keyOrClose hne _ _).trans (run_memberTokens members hne [] [] frames rest)

/-- Items are added to those that were read before, until the array is closed. -/
theorem run_itemTokens : ∀ items : List Json, items ≠ [] →
    ∀ (read : List Json) (frames : List Frame) (rest : List Token),
    run ⟨.value, .array read :: frames⟩ (itemTokens items ++ .closeArray :: rest) =
      run (complete (.array (read.reverse ++ items)) frames) rest
  | [], hne, _, _, _ => (hne rfl).elim
  | [v], _, read, frames, rest => by
      rw [itemTokens, run_tokens v, ← List.reverse_cons]
      rfl
  | v :: w :: more, _, read, frames, rest => by
      have hmore := run_itemTokens (w :: more) (List.cons_ne_nil _ _) (v :: read) frames rest
      rw [List.reverse_cons, List.append_assoc, List.singleton_append] at hmore
      rw [itemTokens, List.append_assoc, List.cons_append, run_tokens v, ← hmore]
      · rfl
      · exact List.cons_ne_nil _ _

theorem run_memberTokens : ∀ members : Members, members ≠ [] →
    ∀ (read : Members) (key : Bytes) (frames : List Frame) (rest : List Token),
    run ⟨.key, .object read key :: frames⟩ (memberTokens members ++ .closeObject :: rest) =
      run (complete (.object (read.reverse ++ members)) frames) rest
  | [], hne, _, _, _, _ => (hne rfl).elim
  | [(k, v)], _, read, key, frames, rest => by
      rw [memberTokens, List.cons_append, List.cons_append, run_key, run_tokens v,
        ← List.reverse_cons]
      rfl
  | (k, v) :: member :: more, _, read, key, frames, rest => by
      have hmore :=
        run_memberTokens (member :: more) (List.cons_ne_nil _ _) ((k, v) :: read) k frames rest
      rw [List.reverse_cons, List.append_assoc, List.singleton_append] at hmore
      rw [memberTokens, List.cons_append, List.cons_append, run_key, List.append_assoc,
        List.cons_append, run_tokens v, ← hmore]
      · rfl
      · exact List.cons_ne_nil _ _

end

end Reader

/-- No word starts with the first byte of a byte order mark. -/
theorem Token.Spells.head?_ne {word : Bytes} {v : Json} (hword : Token.Spells word v) :
    word.head? ≠ some 0xEF := by
  intro hhead
  obtain ⟨b, rest, rfl⟩ := List.exists_cons_of_ne_nil hword.ne_nil
  cases hhead
  have hbroken : Token.ofWord (0xEF :: rest) = [.broken] := rfl
  have htoken := hword.token
  rw [hbroken] at htoken
  cases htoken

theorem head?_render (v : Json) : (render v).head? ≠ some 0xEF := by
  cases v with
  | string s =>
      have hhead : (render (.string s)).head? = some '"'.toUInt8 := rfl
      rw [hhead]
      decide
  | array items =>
      rw [render_array, List.head?_cons]
      decide
  | object members =>
      rw [render_object, List.head?_cons]
      decide
  | _ => exact (spells_render rfl).head?_ne

/-- There is no byte order mark to skip. -/
theorem ofText_of_head?_ne {text : Bytes} (hhead : text.head? ≠ some 0xEF) :
    Token.ofText text = Token.scan .between text := by
  unfold Token.ofText
  split
  · exact (hhead rfl).elim
  · rfl

theorem ofText_render {v : Json} (hv : v.isUtf8) : Token.ofText (render v) = tokens (reread v) := by
  have hend : Token.EndsWord [] := fun _ h => by cases h
  have hscan := scan_render hv hend
  rw [List.append_nil, Token.scan, List.append_nil] at hscan
  rw [ofText_of_head?_ne (head?_render v), hscan]

/-- What is written for a value is read as that value again. -/
theorem parseRaw_render {v : Json} (hv : v.isUtf8) : parseRaw (render v) = .ok (reread v) := by
  have hrun := Reader.run_tokens (reread v) [] []
  rw [List.append_nil] at hrun
  rw [parseRaw, ofText_render hv, Reader.start, hrun]
  rfl

theorem parse_render {v : Json} (hv : v.isUtf8) : parse (render v) = .ok (reread v).canonical := by
  rw [parse, parseRaw_render hv]
  rfl

/-! ### Values that come back as they were -/

theorem keys_rereadMembers (members : Members) :
    Members.keys (rereadMembers members) = Members.keys members := by
  induction members with
  | nil => rfl
  | cons member rest ih => exact congrArg (member.1 :: ·) ih

mutual

theorem isCanonical_reread : ∀ {v : Json}, v.IsCanonical → (reread v).IsCanonical
  | .null, _ | .bool _, _ | .unsigned _, _ | .string _, _ => trivial
  | .signed _, _ => by
      rw [reread]
      split <;> trivial
  | .float x, _ => by
      rw [reread]
      cases Binary64.ofFloat x <;> trivial
  | .array _, h => itemsCanonical_rereadItems h
  | .object members, h => by
      refine ⟨?_, membersCanonical_rereadMembers h.2⟩
      rw [Members.Sorted, keys_rereadMembers]
      exact h.1

theorem itemsCanonical_rereadItems :
    ∀ {items : List Json}, ItemsCanonical items → ItemsCanonical (rereadItems items)
  | [], _ => trivial
  | _ :: _, h => ⟨isCanonical_reread h.1, itemsCanonical_rereadItems h.2⟩

theorem membersCanonical_rereadMembers :
    ∀ {members : Members}, MembersCanonical members → MembersCanonical (rereadMembers members)
  | [], _ => trivial
  | (_, _) :: _, h => ⟨isCanonical_reread h.1, membersCanonical_rereadMembers h.2⟩

end

theorem itemsEqual_reread {items : List Json} :
    itemsEqual (rereadItems items) items ↔ ∀ v ∈ items, (reread v).equal v := by
  induction items with
  | nil => simp [rereadItems, itemsEqual]
  | cons v rest ih => rw [rereadItems, itemsEqual, Bool.and_eq_true, ih, List.forall_mem_cons]

theorem membersEqual_reread {members : Members} :
    membersEqual (rereadMembers members) members ↔
      ∀ member ∈ members, True ∧ (reread member.2).equal member.2 := by
  induction members with
  | nil => simp [rereadMembers, membersEqual]
  | cons member rest ih =>
      rw [rereadMembers, membersEqual, Bool.and_eq_true, Bool.and_eq_true, ih, List.forall_mem_cons]
      simp

/-- A word that is not negative is the same with and without a sign. -/
theorem toInt64_toUInt64 {n : Int64} (hn : 0 ≤ n.toInt) : n.toInt.toNat.toUInt64.toInt64 = n := by
  have hback : Int64.ofInt n.toInt = n := Int64.ofInt_toInt n
  obtain ⟨k, hk⟩ := Int.eq_ofNat_of_zero_le hn
  rw [hk] at hback ⊢
  rw [Int.toNat_natCast, ← hback]
  rfl

theorem equal_reread_of_isSpelled {v : Json} (hv : Token.IsSpelled v) : (reread v).equal v := by
  cases v with
  | string | array | object => cases hv
  | signed n =>
      rw [reread]
      split
      · rename_i hn
        have hwords : ∀ m : UInt64, (unsigned m).equal (signed n) = (m.toInt64 == n) := fun _ => by
          simp only [equal, numbersEqual]
        rw [hwords, toInt64_toUInt64 hn, beq_self_eq_true]
      · exact equal_self trivial
  | float x =>
      have hfree := hv.nanFree
      obtain ⟨_, _, _, hfinite⟩ := hv
      rw [reread, hfinite]
      exact equal_self hfree
  | _ => exact equal_self trivial

theorem hereditary_equal_reread : Hereditary (fun v => (reread v).equal v) (fun _ => True) where
  array := by intro items; rw [reread, equal]; exact itemsEqual_reread
  object := by intro members; rw [reread, equal]; exact membersEqual_reread

/-- A value that was read is equal to what is read again once it is written. -/
def rereading : Reader.Invariant where
  token := Token.IsSound
  value v := (reread v).equal v
  key _ := True
  hereditary := hereditary_equal_reread
  scalar := equal_reread_of_isSpelled
  text _ := ⟨by simp [reread, equal], trivial⟩
  noKey := trivial

/-- A value that a lenient printer writes as it is, and that is read again as an equal one. -/
structure Lasting (v : Json) : Prop where
  isUtf8 : v.isUtf8
  isCanonical : v.IsCanonical
  equal : (reread v).equal v

namespace Lasting

variable {v : Json}

theorem null : Lasting .null :=
  ⟨rfl, trivial, rfl⟩

theorem of_get? {key : Bytes} {document : Json} (h : Lasting document)
    (hget : document.get? key = some v) : Lasting v :=
  ⟨isUtf8_of_get? h.isUtf8 hget, isCanonical_of_get? h.isCanonical hget,
    hereditary_equal_reread.of_get? h.equal hget⟩

theorem equal_again (h : Lasting v) : (reread v.repaired).canonical.equal v := by
  rw [repaired_of_isUtf8 h.isUtf8, canonical_of_isCanonical (isCanonical_reread h.isCanonical)]
  exact h.equal

end Lasting

/-- What was read from a text lasts. -/
theorem lasting_of_parseRaw {text : Bytes} {written : Json} (hparse : parseRaw text = .ok written) :
    Lasting written.canonical := by
  have hrun := exists_run_of_parseRaw hparse
  have hequal : (reread written).equal written :=
    rereading.value_of_run (Token.isSound_ofText text) hrun
  exact ⟨isUtf8_of_run hrun, isCanonical_canonical written, hereditary_equal_reread.canonical hequal⟩

end CampaignRules.Json
