import CampaignRules.CommandLine.Run
import CampaignRules.Proofs.Json.Reading
import CampaignRules.Proofs.Tool.Failure

/-! # How the program ends

The program ends with a status, be it after a complaint, with three exceptions. A snapshot with a
number that is too large is malformed in a way that is not complained about; an argument of a tool
that is not UTF-8 cannot be logged; and a patch with an oversized position escapes its tool. -/

namespace CampaignRules

namespace Snapshot

theorem reportable_of_rejection? {document : Json} {e : Error} (hutf8 : document.isUtf8)
    (hrejected : rejection? document = some e) : e.IsReportable := by
  unfold rejection? at hrejected
  split at hrejected
  · cases hrejected
    rfl
  · split at hrejected
    · cases hrejected
    · rename_i format hformat
      have hshown : format.render? = some format.render :=
        if_pos (Json.isUtf8_of_get? hutf8 hformat)
      rw [hshown] at hrejected
      split at hrejected
      · cases hrejected
      · cases hrejected
        rfl

/-- If the load has failed, the failure can be reported. -/
def Loading.IsReportable (loading : Loading) : Prop :=
  ∀ e, loading.failure = some e → e.IsReportable

theorem Loading.IsReportable.andThen {loading : Loading} {next : Snapshot → Loading}
    (hloading : loading.IsReportable) (hnext : ∀ s, (next s).IsReportable) :
    (loading.andThen next).IsReportable := by
  unfold Loading.andThen
  split
  · exact hloading
  · exact hnext loading.snapshot

theorem isReportable_loadList {α : Type} (key : Bytes) (read : Json → Except Error α)
    (put : List α → Snapshot → Snapshot) (document : Json) (s : Snapshot) :
    (loadList key read put document s).IsReportable := by
  intro e hfailure
  unfold loadList at hfailure
  split at hfailure
  all_goals cases hfailure
  rfl

theorem isReportable_load {document : Json} (hutf8 : document.isUtf8) (s : Snapshot) :
    (load document s).IsReportable := by
  unfold load
  dsimp only
  split
  · rename_i rejected hrejected
    intro e hfailure
    cases hfailure
    exact reportable_of_rejection? hutf8 hrejected
  · have hconditions := isReportable_loadList "conditions" Condition.ofJson
      (fun l s => { s with conditions := l }) document
    have heffects := isReportable_loadList "effects" Effect.ofJson
      (fun l s => { s with effects := l }) document
    have hentities := isReportable_loadList "entities" Entity.ofJson
      (fun l s => { s with entities := l }) document
    have hend : ∀ s : Snapshot, Loading.IsReportable ⟨s, [loadedEvent s], none⟩ := by
      intro s e hfailure
      cases hfailure
    exact (((hconditions _).andThen heffects).andThen hentities).andThen hend

/-- A snapshot that cannot be read is complained about, unless a number in it is too large. -/
theorem failsOnly_ofText (path text : Bytes) :
    FailsOnly (fun e => e.IsReportable ∨
      e = .json .outOfRange ∧ Json.parseFirst text = .error .outOfRange)
      (ofText path text).outcome := by
  unfold ofText
  split
  · rename_i document hparse
    rw [Recorded.outcome_bind]
    refine FailsOnly.bind ?_ fun _ => .ok _
    have hload := isReportable_load (Json.isUtf8_of_parse (.inr hparse)) empty
    unfold ofJson
    dsimp only
    split
    · rename_i e hfailure
      exact .error (.inl (hload e hfailure))
    · exact .ok _
  · exact .error (.inl rfl)
  · rename_i e hmalformed hparse
    cases e with
    | malformed => exact absurd rfl hmalformed
    | wrongType => exact absurd hparse Json.parseFirst_ne_wrongType
    | outOfRange => exact .error (.inr ⟨rfl, hparse⟩)

end Snapshot

namespace CommandLine

/-- The name of an option that is UTF-8 is UTF-8. -/
theorem isValid_drop {argument : Bytes} (hoption : isOption argument)
    (hvalid : Utf8.isValid argument) : Utf8.isValid (argument.drop 2) := by
  obtain ⟨name, rfl⟩ := List.isPrefixOf_iff_prefix.1 hoption
  have hdashes : ∀ b ∈ ("--" : Bytes), b < 0x80 := by decide +kernel
  exact (Utf8.accepts_start_append hdashes name).symm.trans hvalid

theorem isUtf8_valueOf {argument : Bytes} (hvalid : Utf8.isValid argument) :
    (valueOf argument).isUtf8 := by
  unfold valueOf
  split
  · rename_i hparse
    exact Json.isUtf8_of_parse (.inl hparse)
  · exact hvalid

/-- Collecting arguments does not fail, and it comes up with texts that are not UTF-8 only if there
are such arguments. -/
theorem exists_collect (arguments : Json) (given : List Bytes) :
    ∃ named, (collect arguments given).outcome = .ok named ∧
      (arguments.isUtf8 → (∀ argument ∈ given, Utf8.isValid argument) → named.isUtf8) := by
  fun_induction collect arguments given with
  | case1 arguments => exact ⟨arguments, rfl, fun hutf8 _ => hutf8⟩
  | case2 arguments rest ih =>
      obtain ⟨named, hnamed, hkept⟩ := ih
      exact ⟨named, hnamed, fun hutf8 hgiven => hkept hutf8 (List.forall_mem_cons.1 hgiven).2⟩
  | case3 arguments argument _ hoption =>
      refine ⟨_, rfl, fun hutf8 hgiven => ?_⟩
      have hargument := List.forall_mem_singleton.1 hgiven
      exact Json.isUtf8_set hutf8 (isValid_drop hoption hargument) rfl
  | case4 arguments argument _ hoption value more _ ih =>
      obtain ⟨named, hnamed, hkept⟩ := ih
      refine ⟨named, hnamed, fun hutf8 hgiven => ?_⟩
      obtain ⟨hargument, hrest⟩ := List.forall_mem_cons.1 hgiven
      exact hkept (Json.isUtf8_set hutf8 (isValid_drop hoption hargument) rfl) hrest
  | case5 arguments argument _ hoption value more _ ih =>
      obtain ⟨named, hnamed, hkept⟩ := ih
      refine ⟨named, hnamed, fun hutf8 hgiven => ?_⟩
      simp only [List.forall_mem_cons] at hgiven
      obtain ⟨hargument, hvalue, hmore⟩ := hgiven
      exact hkept (Json.isUtf8_set hutf8 (isValid_drop hoption hargument) (isUtf8_valueOf hvalue)) hmore
  | case6 arguments argument rest _ _ ih =>
      obtain ⟨named, hnamed, hkept⟩ := ih
      exact ⟨named, hnamed, fun hutf8 hgiven => hkept hutf8 (List.forall_mem_cons.1 hgiven).2⟩

/-- The command comes to a result of the one kind, or fails with an error of the other. -/
def Ends {α : Type} (Q : α → Prop) (P : Error → Prop) (x : Command α) : Prop :=
  (∃ a, x.outcome = .ok a ∧ Q a) ∨ ∃ e, x.outcome = .error e ∧ P e

namespace Ends

variable {α β : Type} {Q : α → Prop} {R : β → Prop} {P : Error → Prop}

theorem pure {a : α} (ha : Q a) : Ends Q P (Pure.pure a) :=
  .inl ⟨a, rfl, ha⟩

theorem fail {e : Error} (he : P e) : Ends Q P (.fail e) :=
  .inr ⟨e, rfl, he⟩

theorem bind_of_ok {x : Command β} {f : β → Command α} {b : β} (hx : x.outcome = .ok b)
    (hf : Ends Q P (f b)) : Ends Q P (x >>= f) := by
  have hbind : (x >>= f).outcome = (f b).outcome := by
    rw [Recorded.outcome_bind, hx]
    rfl
  rwa [Ends, hbind]

theorem bind {x : Command β} {f : β → Command α} (hx : Ends R P x)
    (hf : ∀ b, R b → Ends Q P (f b)) : Ends Q P (x >>= f) := by
  rcases hx with ⟨b, hok, hb⟩ | ⟨e, herror, he⟩
  · exact bind_of_ok hok (hf b hb)
  · refine .inr ⟨e, ?_, he⟩
    rw [Recorded.outcome_bind, herror]
    rfl

end Ends

/-- A status tells success or failure. -/
abbrev IsStatus (status : Nat) : Prop :=
  status ≤ 1

/-- How a tool that is run on some arguments fails without a report: an argument is not UTF-8, or a
patch that the tool carries out has an oversized position. -/
inductive ToolEscape (tool : Tool) (source : Snapshot) (given : List Bytes) : Error → Prop
  | brokenText {argument : Bytes} : argument ∈ given → Utf8.isValid argument = false →
      ToolEscape tool source given (.json .wrongType)
  | oversizedPosition {named payload : Json} : (collect (.object []) given).outcome = .ok named →
      payload ∈ tool.payloads source named → Patch.fitsWords payload = false →
      ToolEscape tool source given .oversizedIndex

variable {P : Error → Prop}

theorem ends_report (asJson : Bool) (result : Tool.Result) :
    Ends IsStatus P (report asJson result) := by
  obtain ⟨isError, content, structured⟩ := result
  cases isError with
  | true => exact .inl ⟨1, by cases asJson <;> rfl, Nat.le_refl 1⟩
  | false => exact .inl ⟨0, by cases asJson <;> rfl, Nat.zero_le 1⟩

theorem ends_runTool {tool : Tool} (htool : tool ∈ Tool.catalogue) (now : Moment)
    (given : List Bytes) (asJson : Bool) (engine : Engine) :
    Ends IsStatus (ToolEscape tool engine.source given) (runTool now tool given asJson engine) := by
  obtain ⟨named, hnamed, hutf8⟩ := exists_collect (.object []) given
  refine Ends.bind_of_ok hnamed ?_
  split
  · rename_i hshown
    refine .fail ?_
    have hbroken : ¬named.isUtf8 = true := by
      intro h
      rw [Json.render?, if_pos h] at hshown
      cases hshown
    by_contra hescape
    refine hbroken (hutf8 rfl fun argument hmem => ?_)
    by_contra hargument
    exact hescape (.brokenText hmem (Bool.eq_false_iff.2 hargument))
  · refine Ends.bind_of_ok rfl (Ends.bind_of_ok rfl ?_)
    have hcall := Tool.escapes_call htool now named engine
    split
    · exact ends_report asJson _
    · rename_i e hfailed
      obtain ⟨rfl, payload, hpayload, hwide⟩ := hcall e hfailed
      exact .fail (.oversizedPosition hnamed hpayload hwide)

/-! ### The program -/

/-- How the program fails without a report: a number in the records is too large, or the tool that
it runs on them fails so. -/
inductive Escape (files : Files) (reading : Config.Reading) : Error → Prop
  | hugeNumber {text : Bytes} : files reading.config.sourcePath = some text →
      Json.parseFirst text = .error .outOfRange → Escape files reading (.json .outOfRange)
  | tool {name : Bytes} {given : List Bytes} {tool : Tool} {source : Snapshot} {e : Error} :
      (Wish.ofArguments reading.rest).tool = some (name, given) → Tool.named? name = some tool →
      (openSource files reading.config).outcome = .ok source →
      ToolEscape tool source given e → Escape files reading e

/-- What the program goes on to, if it ends with a status. -/
def Course.HasStatus : Course → Prop
  | .finished status => IsStatus status
  | .serving _ => True

theorem ends_proceed (now : Moment) (wish : Wish) (engine : Engine) :
    Ends Course.HasStatus (fun e => ∃ name given tool, wish.tool = some (name, given) ∧
      Tool.named? name = some tool ∧ ToolEscape tool engine.source given e)
      (proceed now wish engine) := by
  unfold proceed
  split
  · exact Ends.bind_of_ok rfl (.pure (Nat.zero_le 1))
  split
  · exact Ends.bind_of_ok rfl (.pure trivial)
  · rename_i name given hwish
    split
    · rename_i tool htool
      have hmem : tool ∈ Tool.catalogue := List.mem_of_find?_eq_some htool
      rcases ends_runTool hmem now given wish.asJson engine with ⟨status, hok, hstatus⟩ | ⟨e, herror, hescape⟩
      · exact Ends.bind_of_ok hok (.pure hstatus)
      · refine .inr ⟨e, ?_, name, given, tool, hwish, htool, hescape⟩
        rw [Recorded.outcome_bind, herror]
        rfl
    · exact Ends.bind_of_ok rfl (Ends.bind_of_ok rfl (.pure (Nat.le_refl 1)))

/-- Records in a file that cannot be opened are complained about, unless a number in it is too
large. -/
theorem failsOnly_openSource (files : Files) {config : Config} (hjson : config.sourceKind = .json) :
    FailsOnly (fun e => e.IsReportable ∨ e = .json .outOfRange ∧
      ∃ text, files config.sourcePath = some text ∧ Json.parseFirst text = .error .outOfRange)
      (openSource files config).outcome := by
  rw [openSource, hjson]
  cases hfile : files config.sourcePath with
  | none => exact .error (.inl rfl)
  | some text =>
      dsimp only
      rw [Recorded.outcome_bind]
      refine ((Snapshot.failsOnly_ofText config.sourcePath text).mono fun e h => ?_).bind
        fun snapshot => ?_
      · exact h.imp_right fun ⟨heq, hparse⟩ => ⟨heq, text, rfl, hparse⟩
      · rw [Recorded.outcome_bind]
        exact .ok snapshot

theorem ends_start (now : Moment) (environment : Config.Environment) (files : Files)
    (arguments : List Bytes)
    (hjson : (Config.read environment arguments).config.sourceKind = .json) :
    Ends Course.HasStatus (Escape files (Config.read environment arguments))
      (start now environment files arguments) := by
  unfold start
  generalize Config.read environment arguments = reading at hjson
  refine Ends.bind_of_ok rfl ?_
  dsimp only
  split
  · exact Ends.bind_of_ok rfl (.pure (Nat.zero_le 1))
  split
  · refine Ends.bind_of_ok rfl ?_
    split
    · exact .pure (Nat.zero_le 1)
    · exact Ends.bind_of_ok rfl (.pure (Nat.le_refl 1))
  refine Ends.bind_of_ok rfl ?_
  have hopen := failsOnly_openSource files hjson
  split
  · rename_i snapshot hsnapshot
    refine (ends_proceed now _ _).imp_right fun ⟨e, herror, h⟩ => ⟨e, herror, ?_⟩
    obtain ⟨name, given, tool, hwish, htool, hescape⟩ := h
    exact .tool hwish htool hsnapshot hescape
  · rename_i e hfailed
    rcases hopen e hfailed with hreportable | ⟨rfl, text, hfile, hparse⟩
    · obtain ⟨report, hreport⟩ := hreportable.exists_report
      rw [hreport]
      exact Ends.bind_of_ok rfl (.pure (Nat.le_refl 1))
    · exact .fail (.hugeNumber hfile hparse)

/-- Serving does not fail. -/
theorem outcome_serve (now : Moment) (lines : List Bytes) :
    ∀ session, (serve now session lines).outcome = .ok () := by
  induction lines with
  | nil => exact fun _ => rfl
  | cons line rest ih =>
      intro session
      rw [serve]
      rcases answerLine now line session with ⟨next, output⟩
      dsimp only
      rw [Recorded.outcome_bind]
      show (if next.isShutDown then return () else serve now next rest).outcome = _
      split
      · rfl
      · exact ih next

/-- Whatever the arguments, the environment, the files and the input are, the program ends with a
status, or by one of the failures that are not reported. -/
theorem ends_with_status (now : Moment) (environment : Config.Environment) (files : Files)
    (arguments : List Bytes) (input : Bytes)
    (hjson : (Config.read environment arguments).config.sourceKind = .json) :
    (∃ status, (run now environment files arguments input).outcome = .ok status ∧ status ≤ 1) ∨
      ∃ e, (run now environment files arguments input).outcome = .error e ∧
        Escape files (Config.read environment arguments) e := by
  refine (ends_start now environment files arguments hjson).bind fun course hcourse => ?_
  cases course with
  | finished status => exact .pure hcourse
  | serving session => exact Ends.bind_of_ok (outcome_serve ..) (.pure (Nat.zero_le 1))

/-- Records in one file. -/
def onlyFile (path text : Bytes) : Files := fun asked =>
  if asked = path then some text else none

/-- A condition that is not there is an error of the tool, and the program ends with the status that
says so. -/
theorem ends_with_status_unknown :
    let environment : Config.Environment := fun _ => none
    let files := onlyFile "w.json" "\x7b\x7d"
    let arguments : List Bytes :=
      ["--source", "w.json", "evaluate_condition", "--conditionId", "rich"]
    (Config.read environment arguments).config.sourceKind = .json ∧
      ∃ status, (run ⟨0⟩ environment files arguments []).outcome = .ok status ∧ status ≤ 1 := by
  intro environment files arguments
  have hjson : (Config.read environment arguments).config.sourceKind = .json := rfl
  refine ⟨hjson, (ends_with_status ⟨0⟩ environment files arguments [] hjson).resolve_right ?_⟩
  rintro ⟨e, herror, -⟩
  have hended : (run ⟨0⟩ environment files arguments []).outcome = .ok 1 := rfl
  cases hended.symm.trans herror

/-- None of these runs ends with a status: the records hold a number that is too large, an argument
is not UTF-8, or a patch names the position `2 ^ 64`. -/
theorem ends_without_status :
    let environment : Config.Environment := fun _ => none
    let arguments (given : List Bytes) : List Bytes := "--source" :: "w.json" :: given
    let ended (records : Bytes) (given : List Bytes) :=
      (run ⟨0⟩ environment (onlyFile "w.json" records) (arguments given) []).outcome
    let broken : List Bytes := ["detect_cycles", "--note", [0xFF]]
    let oversized : List Bytes := ["preview_patch",
      "--document", "\x7b\"variables\":\x7b\"list\":[]\x7d\x7d",
      "--payload", "[\x7b\"op\":\"add\",\"path\":\"/variables/list/18446744073709551616\",\"value\":1\x7d]"]
    (∀ given ∈ ([["detect_cycles"], broken, oversized] : List (List Bytes)),
      (Config.read environment (arguments given)).config.sourceKind = .json) ∧
      (∃ e, ended "\x7b\"format\":1e999\x7d" ["detect_cycles"] = .error e ∧
        e.message = Json.Failure.outOfRange.message) ∧
      ended "\x7b\x7d" broken = .error (.json .wrongType) ∧
      ended "\x7b\x7d" oversized = .error .oversizedIndex := by
  intro environment arguments ended broken oversized
  obtain ⟨e, hended, hmessage⟩ := exists_error_of_any
    (ended "\x7b\"format\":1e999\x7d" ["detect_cycles"])
    (fun e => e.message = Json.Failure.outOfRange.message) (by decide +kernel)
  exact ⟨by decide, ⟨e, hended, of_decide_eq_true hmessage⟩, rfl, rfl⟩

end CommandLine

end CampaignRules
