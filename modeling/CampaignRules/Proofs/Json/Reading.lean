import CampaignRules.Json.Parser
import CampaignRules.Proofs.Json.Texts
import CampaignRules.Proofs.Json.Token

/-! # Values that were read

What holds of all tokens of a text holds of the value that is read from them: there is no NaN in it
and all its texts are UTF-8. Objects are put in order once they are read. So a value that was read
equals itself, and it is the only one with its keys and values. -/

namespace CampaignRules.Json

namespace Reader

/-- What holds of a value by the tokens that spell it: it holds of scalars and texts if it holds of
their tokens, and of containers if it holds of all that they hold. -/
structure Invariant where
  token : Token → Prop
  value : Json → Prop
  key : Bytes → Prop
  hereditary : Hereditary value key
  scalar {v : Json} : token (.scalar v) → value v
  text {s : Bytes} : token (.text s) → value (.string s) ∧ key s
  /-- before the first key is read, the empty one stands in its place -/
  noKey : key []

namespace Invariant

variable (inv : Invariant)

/-- It holds of what a container holds so far. -/
def Frame : Reader.Frame → Prop
  | .array items => ∀ v ∈ items, inv.value v
  | .object members key =>
    inv.key key ∧ ∀ member ∈ members, inv.key member.1 ∧ inv.value member.2

/-- It holds of the document, if that is complete. -/
def Expected : Reader.Expected → Prop
  | .nothing document => inv.value document
  | _ => True

/-- It holds of all that was read so far. -/
structure Holds (reader : Reader) : Prop where
  expected : inv.Expected reader.expected
  frames : ∀ frame ∈ reader.frames, inv.Frame frame

variable {inv} {v : Json} {frames : List Reader.Frame} {token : Token} {reader next : Reader}

theorem holds_complete (hv : inv.value v) (hframes : ∀ frame ∈ frames, inv.Frame frame) :
    inv.Holds (complete v frames) := by
  cases frames with
  | nil => exact ⟨hv, hframes⟩
  | cons frame outer =>
      rw [List.forall_mem_cons] at hframes
      cases frame with
      | array items =>
          have hitems : inv.Frame (.array (v :: items)) := List.forall_mem_cons.2 ⟨hv, hframes.1⟩
          exact ⟨trivial, List.forall_mem_cons.2 ⟨hitems, hframes.2⟩⟩
      | object members key =>
          have hmembers : inv.Frame (.object ((key, v) :: members) key) :=
            ⟨hframes.1.1, List.forall_mem_cons.2 ⟨⟨hframes.1.1, hv⟩, hframes.1.2⟩⟩
          exact ⟨trivial, List.forall_mem_cons.2 ⟨hmembers, hframes.2⟩⟩

theorem holds_beginValue (htoken : inv.token token) (hframes : ∀ frame ∈ frames, inv.Frame frame)
    (hbegin : beginValue frames token = .ok next) : inv.Holds next := by
  cases token with
  | scalar v =>
      cases hbegin
      exact holds_complete (inv.scalar htoken) hframes
  | text s =>
      cases hbegin
      exact holds_complete (inv.text htoken).1 hframes
  | openArray =>
      cases hbegin
      exact ⟨trivial, List.forall_mem_cons.2 ⟨List.forall_mem_nil _, hframes⟩⟩
  | openObject =>
      cases hbegin
      exact ⟨trivial, List.forall_mem_cons.2 ⟨⟨inv.noKey, List.forall_mem_nil _⟩, hframes⟩⟩
  | _ => cases hbegin

theorem holds_beginMember (htoken : inv.token token) (hframes : ∀ frame ∈ frames, inv.Frame frame)
    (hbegin : beginMember frames token = .ok next) : inv.Holds next := by
  unfold beginMember at hbegin
  split at hbegin
  · cases hbegin
    rw [List.forall_mem_cons] at hframes
    exact ⟨trivial, List.forall_mem_cons.2 ⟨⟨(inv.text htoken).2, hframes.1.2⟩, hframes.2⟩⟩
  · cases hbegin

theorem holds_close (hframes : ∀ frame ∈ frames, inv.Frame frame)
    (hclose : close frames token = .ok next) : inv.Holds next := by
  unfold close at hclose
  split at hclose
  · cases hclose
    rw [List.forall_mem_cons] at hframes
    exact holds_complete (inv.hereditary.array.2 fun v hv => hframes.1 v (List.mem_reverse.1 hv)) hframes.2
  · cases hclose
    rw [List.forall_mem_cons] at hframes
    exact holds_complete
      (inv.hereditary.object.2 fun member hmember => hframes.1.2 member (List.mem_reverse.1 hmember)) hframes.2
  · cases hclose

theorem holds_step (hreader : inv.Holds reader) (htoken : inv.token token)
    (hstep : reader.step token = .ok next) : inv.Holds next := by
  unfold step at hstep
  split at hstep
  · exact holds_beginValue htoken hreader.frames hstep
  · exact holds_close hreader.frames hstep
  · exact holds_beginValue htoken hreader.frames hstep
  · exact holds_beginMember htoken hreader.frames hstep
  · exact holds_close hreader.frames hstep
  · exact holds_beginMember htoken hreader.frames hstep
  · cases hstep
    exact ⟨trivial, hreader.frames⟩
  · split at hstep
    all_goals
      cases hstep
      exact ⟨trivial, hreader.frames⟩
  · exact holds_close hreader.frames hstep
  · cases hstep

theorem holds_run {tokens rest : List Token} {document : Json} (hreader : inv.Holds reader)
    (htokens : ∀ token ∈ tokens, inv.token token)
    (hrun : reader.run tokens = .ok (document, rest)) : inv.value document := by
  fun_induction run reader tokens with
  | case1 =>
      cases hrun
      exact hreader.expected
  | case2 | case4 => cases hrun
  | case3 _ _ _ _ _ hstep ih =>
      rw [List.forall_mem_cons] at htokens
      exact ih (holds_step hreader htokens.1 hstep) htokens.2 hrun

/-- What holds of all tokens of a text holds of the value that is read from it. -/
theorem value_of_run (inv : Invariant) {text : Bytes} {rest : List Token} {document : Json}
    (htokens : ∀ token ∈ Token.ofText text, inv.token token)
    (hrun : start.run (Token.ofText text) = .ok (document, rest)) : inv.value document := by
  have hstart : inv.Holds start := ⟨trivial, List.forall_mem_nil _⟩
  exact holds_run hstart htokens hrun

end Invariant

section

variable {reader : Reader} {frames : List Frame} {token : Token}

theorem beginValue_ne_wrongType : beginValue frames token ≠ .error .wrongType := by
  unfold beginValue
  split
  all_goals simp

theorem beginMember_ne_wrongType : beginMember frames token ≠ .error .wrongType := by
  unfold beginMember
  split
  all_goals simp

theorem close_ne_wrongType : close frames token ≠ .error .wrongType := by
  unfold close
  split
  all_goals simp

theorem step_ne_wrongType : reader.step token ≠ .error .wrongType := by
  unfold step
  split
  · exact beginValue_ne_wrongType
  · exact close_ne_wrongType
  · exact beginValue_ne_wrongType
  · exact beginMember_ne_wrongType
  · exact close_ne_wrongType
  · exact beginMember_ne_wrongType
  · simp
  · split
    all_goals simp
  · exact close_ne_wrongType
  · simp

/-- A text is malformed or has a number that is too large; there is no other failure. -/
theorem run_ne_wrongType (tokens : List Token) : reader.run tokens ≠ .error .wrongType := by
  fun_induction run reader tokens with
  | case1 | case2 => simp
  | case3 _ _ _ _ _ _ ih => exact ih
  | case4 _ _ _ _ _ hstep =>
      rintro ⟨⟩
      exact step_ne_wrongType hstep

end

end Reader

theorem hereditary_nanFree : Hereditary NanFree (fun _ => True) where
  array := itemsNanFree_iff
  object := by simp only [true_and]; exact membersNanFree_iff

/-- No number that was read is NaN. -/
def nanFreeReading : Reader.Invariant where
  token := Token.IsSound
  value := NanFree
  key _ := True
  hereditary := hereditary_nanFree
  scalar h := h.nanFree
  text _ := ⟨trivial, trivial⟩
  noKey := trivial

/-- All texts that were read are UTF-8. -/
def utf8Reading : Reader.Invariant where
  token := Token.IsSound
  value v := v.isUtf8
  key k := Utf8.isValid k
  hereditary := hereditary_isUtf8
  scalar h := h.isUtf8
  text h := ⟨h, h⟩
  noKey := rfl

mutual

theorem isCanonical_canonical : ∀ v : Json, v.canonical.IsCanonical
  | .null | .bool _ | .unsigned _ | .signed _ | .float _ | .string _ => trivial
  | .array items => itemsCanonical_canonicalItems items
  | .object members =>
    ⟨Members.sorted_ofList _, membersCanonical_iff.2 fun member hmem =>
      membersCanonical_iff.1 (membersCanonical_canonicalMembers members) member
        (Members.mem_ofList hmem)⟩

theorem itemsCanonical_canonicalItems : ∀ items : List Json, ItemsCanonical (canonicalItems items)
  | [] => trivial
  | v :: rest => ⟨isCanonical_canonical v, itemsCanonical_canonicalItems rest⟩

theorem membersCanonical_canonicalMembers :
    ∀ members : Members, MembersCanonical (canonicalMembers members)
  | [] => trivial
  | (_, v) :: rest => ⟨isCanonical_canonical v, membersCanonical_canonicalMembers rest⟩

end

theorem regular_of_run {text : Bytes} {raw : Json} {rest : List Token}
    (hrun : Reader.start.run (Token.ofText text) = .ok (raw, rest)) : raw.canonical.Regular := by
  have hraw : raw.NanFree := nanFreeReading.value_of_run (Token.isSound_ofText text) hrun
  exact ⟨isCanonical_canonical raw, hereditary_nanFree.canonical hraw⟩

theorem isUtf8_of_run {text : Bytes} {raw : Json} {rest : List Token}
    (hrun : Reader.start.run (Token.ofText text) = .ok (raw, rest)) : raw.canonical.isUtf8 := by
  have hraw : raw.isUtf8 := utf8Reading.value_of_run (Token.isSound_ofText text) hrun
  exact hereditary_isUtf8.canonical hraw

theorem exists_run_of_parseRaw {text : Bytes} {raw : Json} (hparse : parseRaw text = .ok raw) :
    Reader.start.run (Token.ofText text) = .ok (raw, []) := by
  rw [parseRaw] at hparse
  split at hparse
  all_goals cases hparse
  assumption

/-- What is read from a text, up to its end or as its first value, is what some run came to. -/
theorem exists_run_of_parse {text : Bytes} {document : Json}
    (hparse : parse text = .ok document ∨ parseFirst text = .ok document) :
    ∃ raw rest, Reader.start.run (Token.ofText text) = .ok (raw, rest) ∧ document = raw.canonical := by
  rcases hparse with hparse | hparse
  · rw [parse] at hparse
    cases hraw : parseRaw text with
    | error e =>
        rw [hraw] at hparse
        cases hparse
    | ok raw =>
        rw [hraw] at hparse
        cases hparse
        exact ⟨raw, [], exists_run_of_parseRaw hraw, rfl⟩
  · rw [parseFirst] at hparse
    cases hrun : Reader.start.run (Token.ofText text) with
    | error e =>
        rw [hrun] at hparse
        cases hparse
    | ok found =>
        rw [hrun] at hparse
        cases hparse
        exact ⟨found.1, found.2, rfl, rfl⟩

/-- What is read from a text is regular. -/
theorem regular_of_parse {text : Bytes} {document : Json}
    (hparse : parse text = .ok document ∨ parseFirst text = .ok document) : document.Regular := by
  obtain ⟨raw, rest, hrun, rfl⟩ := exists_run_of_parse hparse
  exact regular_of_run hrun

theorem isUtf8_of_parse {text : Bytes} {document : Json}
    (hparse : parse text = .ok document ∨ parseFirst text = .ok document) : document.isUtf8 := by
  obtain ⟨raw, rest, hrun, rfl⟩ := exists_run_of_parse hparse
  exact isUtf8_of_run hrun

theorem parseFirst_ne_wrongType {text : Bytes} : parseFirst text ≠ .error .wrongType := by
  intro hparse
  rw [parseFirst] at hparse
  cases hrun : Reader.start.run (Token.ofText text) with
  | error e =>
      rw [hrun] at hparse
      cases hparse
      exact Reader.run_ne_wrongType _ hrun
  | ok found =>
      rw [hrun] at hparse
      cases hparse

end CampaignRules.Json
