import CampaignRules.Proofs.Json.Printer
import CampaignRules.Proofs.Json.TextEnd
import CampaignRules.Proofs.Record.Field
import CampaignRules.Rpc.Session

/-! # Every text gets an answer

Whatever a text is, a session answers it with a text that is read as one response: an object of the
protocol's version with a result or an error, under the id of the request if there is one to be
found. A session is shut down once it has been asked to, and by nothing else. -/

namespace CampaignRules.Rpc

/-- An object of the protocol's version that holds a result or an error, and never both. -/
structure IsResponse (response : Json) : Prop where
  isObject : response.isObject
  version : response.get? "jsonrpc" = some "2.0"
  answer : response.hasKey "result" = !response.hasKey "error"

namespace Response

/-- The members of a response, in order. -/
theorem exists_toJson_eq (r : Response) : ∃ value : Json,
    r.toJson = .object [("id", r.id), ("jsonrpc", "2.0"), ("result", value)] ∨
    r.toJson = .object [("error", value), ("id", r.id), ("jsonrpc", "2.0")] := by
  obtain ⟨id, answer⟩ := r
  cases answer with
  | result value => exact ⟨value, .inl rfl⟩
  | error code message => exact ⟨_, .inr rfl⟩

/-- The text of a response is read as a response under the same id. -/
theorem exists_parse_render (r : Response) : ∃ response, Json.parse r.render = .ok response ∧
    IsResponse response ∧ response.get? "id" = some (Json.reread r.id.repaired).canonical := by
  rw [render, Json.renderLenient, Json.parse_render (Json.isUtf8_repaired _)]
  refine ⟨_, rfl, ?_⟩
  obtain ⟨value, hvalue | hvalue⟩ := exists_toJson_eq r
  · rw [hvalue]
    exact ⟨⟨rfl, rfl, rfl⟩, rfl⟩
  · rw [hvalue]
    exact ⟨⟨rfl, rfl, rfl⟩, rfl⟩

end Response

theorem readText_of_parseRaw {text : Bytes} {written : Json}
    (hread : Json.parseRaw text = .ok written) (hdepth : written.nesting ≤ nestingLimit) :
    readText text = .ok written.canonical := by
  rw [readText, hread]
  exact if_pos hdepth

theorem exists_parseRaw_of_readText {text : Bytes} {value : Json} (hread : readText text = .ok value) :
    ∃ written, Json.parseRaw text = .ok written ∧ written.nesting ≤ nestingLimit ∧
      value = written.canonical := by
  unfold readText at hread
  split at hread
  · rename_i written hparse
    split at hread
    · rename_i hdepth
      cases hread
      exact ⟨written, hparse, hdepth, rfl⟩
    · cases hread
  all_goals cases hread

namespace Request

variable {value : Json}

/-- A request has the protocol's version and names its method. -/
theorem ofJson_eq_ok {request : Request} (hrequest : ofJson value = .ok request) :
    value.get? "jsonrpc" = some "2.0" ∧ value.get? "method" = some (.string request.method) := by
  unfold ofJson at hrequest
  split at hrequest
  · cases hrequest
  · split at hrequest
    · cases hrequest
    · rename_i hversion
      rw [not_not] at hversion
      split at hrequest
      · cases hrequest
      · rename_i hmethod
        cases hrequest
        exact ⟨Json.getText?_eq_some_iff.1 hversion, Json.getText?_eq_some_iff.1 hmethod⟩

theorem exists_ofJson_eq_ok {method : Bytes} (hversion : value.get? "jsonrpc" = some "2.0")
    (hmethod : value.get? "method" = some (.string method)) :
    ∃ request, ofJson value = .ok request := by
  cases value with
  | object members =>
      rw [ofJson, Json.getText?_eq_some_iff.2 hversion, Json.getText?_eq_some_iff.2 hmethod]
      exact ⟨_, rfl⟩
  | _ => cases hversion

end Request

/-- The text of a request to shut down: it is not nested too deep, and it has the protocol's version
and the method. -/
def IsShutdownRequest (text : Bytes) : Prop :=
  ∃ written, Json.parseRaw text = .ok written ∧ written.nesting ≤ nestingLimit ∧
    written.canonical.get? "jsonrpc" = some "2.0" ∧ written.canonical.get? "method" = some "shutdown"

namespace Session

variable {now : Moment} {text : Bytes} {session : Session}

/-- A value is answered under its id, whether or not it is a request and whatever comes of it. -/
theorem id_answerText {written : Json} (hread : Json.parseRaw text = .ok written)
    (hdepth : written.nesting ≤ nestingLimit) :
    (session.answerText now text).answer.id = Request.idOf written.canonical := by
  rw [answerText, readText_of_parseRaw hread hdepth]
  rfl

theorem lasting_idOf {written : Json} (hread : Json.parseRaw text = .ok written) :
    (Request.idOf written.canonical).Lasting := by
  have hlasting := Json.lasting_of_parseRaw hread
  rw [Request.idOf]
  cases hid : written.canonical.get? "id" with
  | none => exact .null
  | some id => exact hlasting.of_get? hid

@[simp] theorem isShutDown_runTool (tool : Tool) (arguments : Json) :
    (session.runTool now tool arguments).session.isShutDown = session.isShutDown :=
  rfl

@[simp] theorem isShutDown_callTool (params : Json) :
    (session.callTool now params).session.isShutDown = session.isShutDown := by
  unfold callTool
  split
  · rfl
  · split
    all_goals rfl

theorem isShutDown_answerRequest (request : Request) :
    (session.answerRequest now request).session.isShutDown ↔
      session.isShutDown ∨ request.method = "shutdown" := by
  have hother : ∀ {name : String}, request.method = name → name ≠ "shutdown" →
      request.method ≠ "shutdown" := fun h hne => by
    rw [h]
    exact mt Bytes.ofString_inj.1 hne
  unfold answerRequest
  split
  · rename_i h
    simp [still, hother h (by decide)]
  split
  · rename_i h
    simp [still, hother h (by decide)]
  split
  · rename_i h
    simp [hother h (by decide)]
  split
  · rename_i h
    simp [h]
  · rename_i h
    simp [still, h]

/-- A value asks to shut the session down if it is a request with that method. -/
theorem isShutDown_answerValue (value : Json) : (session.answerValue now value).session.isShutDown ↔
    session.isShutDown ∨ value.get? "jsonrpc" = some "2.0" ∧ value.get? "method" = some "shutdown" := by
  rw [answerValue]
  cases hrequest : Request.ofJson value with
  | ok request =>
      obtain ⟨hversion, hmethod⟩ := Request.ofJson_eq_ok hrequest
      refine (isShutDown_answerRequest request).trans (or_congr_right ?_)
      rw [hversion, hmethod]
      simp
  | error answer =>
      refine ⟨.inl, fun h => h.resolve_right fun ⟨hversion, hmethod⟩ => ?_⟩
      obtain ⟨request, hok⟩ := Request.exists_ofJson_eq_ok hversion hmethod
      rw [hok] at hrequest
      cases hrequest

theorem isShutDown_answerText : (session.answerText now text).session.isShutDown ↔
    session.isShutDown ∨ IsShutdownRequest text := by
  rw [answerText]
  cases hread : readText text with
  | ok value =>
      obtain ⟨written, hparse, hdepth, rfl⟩ := exists_parseRaw_of_readText hread
      refine isShutDown_answerValue written.canonical |>.trans (or_congr_right ⟨?_, ?_⟩)
      · exact fun ⟨hversion, hmethod⟩ => ⟨written, hparse, hdepth, hversion, hmethod⟩
      · rintro ⟨again, hagain, -, hasked⟩
        rw [hparse] at hagain
        cases hagain
        exact hasked
  | error answer =>
      refine ⟨.inl, fun h => h.resolve_right ?_⟩
      rintro ⟨written, hparse, hdepth, -⟩
      rw [readText_of_parseRaw hparse hdepth] at hread
      cases hread

/-- What stands behind a NUL makes no difference to the answer, nor to the session after it. -/
theorem answerText_append_nul (now : Moment) (text rest : Bytes) (session : Session) :
    session.answerText now (text ++ 0 :: rest) = session.answerText now text := by
  rw [answerText, answerText, readText, Json.parseRaw_append_nul, ← readText]

/-- The session after it has answered some texts, one after the other. -/
def after (session : Session) : List (Moment × Bytes) → Session
  | [] => session
  | (now, text) :: rest => after (session.answerText now text).session rest

theorem isShutDown_after (session : Session) (texts : List (Moment × Bytes)) :
    (session.after texts).isShutDown ↔
      session.isShutDown ∨ ∃ request ∈ texts, IsShutdownRequest request.2 := by
  induction texts generalizing session with
  | nil => simp [after]
  | cons request rest ih =>
      rw [after, ih, isShutDown_answerText, or_assoc, List.exists_mem_cons_iff]

/-- Every text gets one response, which keeps the id of what was asked, and a session is shut down
if and only if one of the texts asked for it. -/
theorem one_answer_to_each_text (session : Session) (texts : List (Moment × Bytes)) :
    (∀ now text, ∃ response,
      Json.parse (session.answerText now text).answer.render = .ok response ∧ IsResponse response ∧
        ∀ written, Json.parseRaw text = .ok written → written.isObject →
          written.nesting ≤ nestingLimit → ∃ id, response.get? "id" = some id ∧
            id.equal ((written.canonical.get? "id").getD .null)) ∧
    ((session.after texts).isShutDown ↔
      session.isShutDown ∨ ∃ request ∈ texts, IsShutdownRequest request.2) := by
  refine ⟨fun now text => ?_, isShutDown_after session texts⟩
  obtain ⟨response, hparse, hresponse, hid⟩ :=
    (session.answerText now text).answer.exists_parse_render
  refine ⟨response, hparse, hresponse, fun written hread _ hdepth => ⟨_, hid, ?_⟩⟩
  rw [id_answerText hread hdepth]
  exact (lasting_idOf hread).equal_again

/-- A text that is an object and no request is refused under its id. -/
theorem one_answer_to_each_text_seven :
    let session := ofEngine (.ofSnapshot {} .empty ⟨[], [], [], [], []⟩)
    let text : Bytes := "\x7b\"id\":7\x7d"
    ∃ response, Json.parse (session.answerText ⟨0⟩ text).answer.render = .ok response ∧
      ∃ id, response.get? "id" = some id ∧ id.equal (.unsigned 7) := by
  intro session text
  have hread : Json.parseRaw text = .ok (.object [("id", .unsigned 7)]) := rfl
  obtain ⟨response, hparse, -, hid⟩ := (one_answer_to_each_text session []).1 ⟨0⟩ text
  exact ⟨response, hparse, hid _ hread rfl (by decide)⟩

end Session

end CampaignRules.Rpc
