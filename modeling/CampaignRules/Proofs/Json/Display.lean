import CampaignRules.Json.Coercion
import CampaignRules.Proofs.Bytes
import CampaignRules.Proofs.Json.Texts

/-! # Values as texts

A value that is shown as a text inside another is a text of UTF-8 if all texts in it are: numerals and
words are ASCII, and so are the commas between items. Numbers come from and go to no text at all. -/

namespace CampaignRules

namespace Bytes

theorem lt_of_isDigit {b : UInt8} (hb : isDigit b) : b < 0x80 := by
  have hdigits : ∀ b : UInt8, isDigit b → b < 0x80 := forall_byte (by decide +kernel)
  exact hdigits b hb

theorem ascii_decimal (n : Nat) : ∀ b ∈ decimal n, b < 0x80 :=
  fun _ hb => lt_of_isDigit (isDigit_of_mem_decimal hb)

theorem ascii_signedDecimal (n : Int) : ∀ b ∈ signedDecimal n, b < 0x80 := by
  cases n with
  | ofNat n => exact ascii_decimal n
  | negSucc n => exact List.forall_mem_cons.2 ⟨by decide, ascii_decimal (n + 1)⟩

theorem ascii_zeros (count : Nat) : ∀ b ∈ zeros count, b < 0x80 :=
  fun _ hb => lt_of_isDigit (isDigit_of_mem_zeros hb)

end Bytes

theorem NumberLayout.ascii_render (layout : NumberLayout) (d : Decimal) :
    ∀ b ∈ layout.render d, b < 0x80 := by
  have hdigits := Bytes.ascii_decimal d.digits
  have hfront : ∀ count, ∀ b ∈ (Bytes.decimal d.digits).take count, b < 0x80 :=
    fun _ b hb => hdigits b (List.mem_of_mem_take hb)
  have hback : ∀ count, ∀ b ∈ (Bytes.decimal d.digits).drop count, b < 0x80 :=
    fun _ b hb => hdigits b (List.mem_of_mem_drop hb)
  have hpoint : ∀ b ∈ ("." : Bytes), b < 0x80 := by decide +kernel
  unfold NumberLayout.render
  dsimp only
  split
  · refine List.forall_mem_append.2 ⟨List.forall_mem_append.2 ⟨hdigits, Bytes.ascii_zeros _⟩, ?_⟩
    decide +kernel
  split
  · exact List.forall_mem_append.2 ⟨List.forall_mem_append.2 ⟨hfront _, hpoint⟩, hback _⟩
  split
  · refine List.forall_mem_append.2 ⟨List.forall_mem_append.2 ⟨?_, Bytes.ascii_zeros _⟩, hdigits⟩
    decide +kernel
  · refine List.forall_mem_append.2 ⟨?_, fun b hb =>
      Bytes.lt_of_isDigit (Bytes.isDigit_of_mem_paddedDecimal hb)⟩
    refine List.forall_mem_append.2 ⟨List.forall_mem_append.2 ⟨List.forall_mem_append.2
      ⟨hfront 1, ?_⟩, by decide +kernel⟩, ?_⟩
    · split
      · exact List.forall_mem_nil _
      · exact List.forall_mem_append.2 ⟨hpoint, hback 1⟩
    · split <;> decide +kernel

namespace Json

theorem ascii_renderFloat (x : Float) : ∀ b ∈ renderFloat x, b < 0x80 := by
  unfold renderFloat
  split
  · refine List.forall_mem_append.2 ⟨?_, ?_⟩
    · split <;> decide +kernel
    · split
      · decide +kernel
      · exact numberLayout.ascii_render _
  · decide +kernel

theorem ascii_displayFloat (x : Float) : ∀ b ∈ displayFloat x, b < 0x80 := by
  unfold displayFloat
  split
  · decide +kernel
  · split <;> decide +kernel
  · dsimp only
    split
    · split
      · exact List.forall_mem_append.2 ⟨by decide +kernel, Bytes.ascii_decimal _⟩
      · exact Bytes.ascii_decimal _
    · exact ascii_renderFloat x

mutual

theorem isValid_display : ∀ {v : Json}, v.isUtf8 → Utf8.isValid v.display
  | .null, _ => by decide +kernel
  | .bool b, _ => by cases b <;> decide +kernel
  | .unsigned _, _ => Utf8.isValid_of_ascii (Bytes.ascii_decimal _)
  | .signed _, _ => Utf8.isValid_of_ascii (Bytes.ascii_signedDecimal _)
  | .float x, _ => Utf8.isValid_of_ascii (ascii_displayFloat x)
  | .string _, h => h
  | .array _, h => isValid_displayItems h
  | .object _, _ => by
      show Utf8.isValid (Bytes.ofString "[object Object]")
      decide +kernel

theorem isValid_displayItems : ∀ {items : List Json}, itemsUtf8 items → Utf8.isValid (displayItems items)
  | [], _ => rfl
  | [item], h => by
      rw [itemsUtf8, Bool.and_eq_true] at h
      rw [displayItems]
      split
      · rfl
      · exact isValid_display h.1
  | item :: next :: rest, h => by
      rw [itemsUtf8, Bool.and_eq_true] at h
      rw [displayItems.eq_3 item (next :: rest) (by simp)]
      refine Utf8.isValid_append (Utf8.isValid_append ?_ (by decide +kernel)) (isValid_displayItems h.2)
      split
      · rfl
      · exact isValid_display h.1

end

theorem isUtf8_ofNumber (x : Float) : (ofNumber x).isUtf8 := by
  unfold ofNumber
  split
  · dsimp only
    split
    · split <;> rfl
    · rfl
  · rfl

/-- A path leads from a value into it. -/
theorem isUtf8_of_follow? : ∀ {segments : List Bytes} {v value : Json}, v.isUtf8 →
    v.follow? segments = some value → value.isUtf8
  | [], v, value, hv, hfollow => by
      cases hfollow
      exact hv
  | segment :: rest, v, value, hv, hfollow => by
      rw [follow?, Option.bind_eq_some_iff] at hfollow
      obtain ⟨inner, hstep, hrest⟩ := hfollow
      refine isUtf8_of_follow? ?_ hrest
      cases v with
      | object members => exact isUtf8_of_get? hv hstep
      | array items =>
          rw [step?] at hstep
          split at hstep
          · cases hstep
          · exact itemsUtf8_iff.1 hv inner (List.mem_of_getElem? hstep)
      | _ => cases hstep

end Json

end CampaignRules
