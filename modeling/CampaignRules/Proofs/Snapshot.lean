import CampaignRules.Proofs.Record.Entity
import CampaignRules.Proofs.Record.RoundTrip
import CampaignRules.Snapshot

/-! # Snapshots written and loaded

A snapshot is written with all records that were loaded, and a record that was loaded is written in
a form that can be loaded. So nothing is lost when what is written is loaded again: conditions and
effects are the same, and an entity has its type in the field in which it is looked for first. What
is written then is the same document.

Loading begins with dropping what is held, so a document that is rejected leaves at most records of
its own. -/

namespace CampaignRules.Snapshot

variable {α : Type} {read : Json → Except Error α} {key : Bytes}

/-- Each record of a list was read from some value of the list. -/
theorem exists_wire_of_mem {record : α} {index : Nat} {items : List Json}
    (hmem : record ∈ (readRecords key read index items).1) : ∃ wire ∈ items, read wire = .ok record := by
  induction items generalizing index with
  | nil => cases hmem
  | cons wire rest ih =>
      rw [readRecords] at hmem
      cases hread : read wire with
      | ok first =>
          simp only [hread] at hmem
          rcases List.mem_cons.1 hmem with rfl | hmem
          · exact ⟨wire, List.mem_cons_self, hread⟩
          · obtain ⟨found, hfound, hok⟩ := ih hmem
            exact ⟨found, List.mem_cons_of_mem _ hfound, hok⟩
      | error e =>
          simp only [hread] at hmem
          obtain ⟨found, hfound, hok⟩ := ih hmem
          exact ⟨found, List.mem_cons_of_mem _ hfound, hok⟩

/-- A list of records that are all read again is read without a warning. -/
theorem readRecords_map {write : α → Json} {again : α → α} {records : List α}
    (hread : ∀ record ∈ records, read (write record) = .ok (again record)) (index : Nat) :
    readRecords key read index (records.map write) = (records.map again, []) := by
  induction records generalizing index with
  | nil => rfl
  | cons record rest ih =>
      obtain ⟨hfirst, hrest⟩ := List.forall_mem_cons.1 hread
      rw [List.map_cons, readRecords, ih hrest, hfirst]
      rfl

theorem loadList_map {write : α → Json} {again : α → α} {records : List α} {document : Json}
    {put : List α → Snapshot → Snapshot} {s : Snapshot}
    (hheld : document.get? key = some (.array (records.map write)))
    (hread : ∀ record ∈ records, read (write record) = .ok (again record)) :
    loadList key read put document s = ⟨put (records.map again) s, [], none⟩ := by
  rw [loadList, hheld]
  simp only [readRecords_map hread, List.append_nil, List.map_nil]

section

variable {P : Snapshot → Prop}

theorem Loading.holds_andThen {loading : Loading} {next : Snapshot → Loading}
    (h : P loading.snapshot) (hnext : ∀ s, P s → P (next s).snapshot) :
    P (loading.andThen next).snapshot := by
  rw [Loading.andThen]
  cases loading.failure with
  | some e => exact h
  | none => exact hnext _ h

theorem holds_loadList {put : List α → Snapshot → Snapshot} {document : Json} {s : Snapshot}
    (h : P s) (hput : ∀ records warnings, (∀ record ∈ records, ∃ wire, read wire = .ok record) →
      P (put records { s with warnings := warnings })) :
    P (loadList key read put document s).snapshot := by
  rw [loadList]
  split
  · exact h
  · exact h
  · refine hput _ _ fun record hmem => ?_
    obtain ⟨wire, -, hread⟩ := exists_wire_of_mem hmem
    exact ⟨wire, hread⟩
  · exact h

end

/-- The entities that are held after a load repeat what their documents hold, even where the load
failed half way. -/
theorem mirrors_load (document : Json) (before : Snapshot) :
    ∀ e ∈ (load document before).snapshot.entities, e.Mirrors := by
  let P : Snapshot → Prop := fun s => ∀ e ∈ s.entities, e.Mirrors
  have hcleared : P { empty with origin := before.origin } := fun _ h => absurd h List.not_mem_nil
  show P (load document before).snapshot
  rw [load]
  cases rejection? document with
  | some e => exact hcleared
  | none =>
      refine Loading.holds_andThen (Loading.holds_andThen (Loading.holds_andThen ?_ ?_) ?_) ?_
      · exact holds_loadList hcleared fun _ _ _ => hcleared
      · exact fun s hs => holds_loadList hs fun _ _ _ => hs
      · refine fun s hs => holds_loadList hs fun records _ hread e hmem => ?_
        obtain ⟨wire, hwire⟩ := hread e hmem
        exact Entity.mirrors_of_ofJson hwire
      · exact fun s hs => hs

/-- The snapshot as it is loaded from what it is written as. -/
def reread (origin : Bytes) (s : Snapshot) : Snapshot :=
  ⟨origin, s.conditions, s.effects, s.entities.map Entity.reread, []⟩

theorem load_written {s : Snapshot} (hmirrors : ∀ e ∈ s.entities, e.Mirrors) (after : Snapshot) :
    load s.toJson after = ⟨s.reread after.origin, [loadedEvent (s.reread after.origin)], none⟩ := by
  have hget : ∀ key : String, s.toJson.get? key = _ := fun key => Json.get?_ofMembers key _
  simp only [List.reverse_cons, List.reverse_nil, List.nil_append, List.cons_append,
    Json.Members.get?, Bytes.ofString_inj] at hget
  have hformat : s.toJson.get? "format" = some (.ofNat currentFormat) := by simp [hget]
  have hconditions : s.toJson.get? "conditions" = some (.array (s.conditions.map Condition.toJson)) := by
    simp [hget]
  have heffects : s.toJson.get? "effects" = some (.array (s.effects.map Effect.toJson)) := by
    simp [hget]
  have hentities : s.toJson.get? "entities" = some (.array (s.entities.map Entity.toJson)) := by
    simp [hget]
  have haccepted : rejection? s.toJson = none := by
    rw [rejection?, hformat]
    rfl
  rw [load, haccepted]
  simp only [loadList_map hconditions fun c _ => c.ofJson_toJson,
    loadList_map heffects fun e _ => e.ofJson_toJson,
    loadList_map hentities fun e hmem => Entity.ofJson_toJson (hmirrors e hmem),
    Loading.andThen, List.map_id', List.nil_append]
  rfl

theorem toJson_reread (origin : Bytes) (s : Snapshot) : (s.reread origin).toJson = s.toJson := by
  have hentities : (s.entities.map Entity.reread).map Entity.toJson = s.entities.map Entity.toJson := by
    rw [List.map_map]
    exact List.map_congr_left fun e _ => e.toJson_reread
  rw [toJson, toJson, reread, hentities]

/-- What is written after a load is loaded without a warning, with the same conditions and effects
and with the same entities, except that the field for the type is there and holds it. It is then
written the same. -/
theorem load_toJson (document : Json) (before after : Snapshot) :
    let s := (load document before).snapshot
    let again := load s.toJson after
    again.failure = none ∧
      again.snapshot = {
        origin := after.origin
        conditions := s.conditions
        effects := s.effects
        entities := s.entities.map fun e =>
          { e with document := e.document.set "entityType" e.ref.type }
        warnings := [] } ∧
      (∀ e ∈ again.snapshot.entities, e.document.get? "entityType" = some (.string e.ref.type)) ∧
      again.snapshot.toJson = s.toJson := by
  intro s again
  have hmirrors := mirrors_load document before
  have hagain : again = _ := load_written hmirrors after
  rw [hagain]
  refine ⟨rfl, rfl, fun e hmem => ?_, toJson_reread _ s⟩
  obtain ⟨loaded, hloaded, rfl⟩ := List.mem_map.1 hmem
  exact Json.get?_set_self (hmirrors loaded hloaded).record.hasVariables.isObject _ _

/-! ### Loads that are rejected -/

/-- What a document has in one of its lists: the records that can be read, and a warning for each
that cannot. -/
def listed (key : Bytes) (read : Json → Except Error α) (document : Json) : List α × List Bytes :=
  match document.get? key with
  | some (.array items) => readRecords key read 0 items
  | _ => ([], [])

/-- A list that is rejected leaves the snapshot as it is. -/
theorem loadList_failed {put : List α → Snapshot → Snapshot} {document : Json} {s : Snapshot}
    {e : Error} (h : (loadList key read put document s).failure = some e) :
    e = .storage (.notArray key) ∧ (loadList key read put document s).snapshot = s := by
  rw [loadList] at h ⊢
  cases hheld : document.get? key with
  | none => simp only [hheld] at h; cases h
  | some items =>
      cases items with
      | null => simp only [hheld] at h; cases h
      | array items => simp only [hheld] at h; cases h
      | _ =>
          simp only [hheld, and_true] at h ⊢
          exact (Option.some.inj h).symm

/-- A list that is not rejected is loaded as a whole. -/
theorem loadList_loaded {put : List α → Snapshot → Snapshot} {document : Json} {s : Snapshot}
    (hput : put [] s = s) (h : (loadList key read put document s).failure = none) :
    (loadList key read put document s).snapshot =
      put (listed key read document).1
        { s with warnings := s.warnings ++ (listed key read document).2 } := by
  have hnothing : s = put [] { s with warnings := s.warnings ++ [] } := by rw [List.append_nil, hput]
  rw [loadList] at h ⊢
  rw [listed]
  cases hheld : document.get? key with
  | none => exact hnothing
  | some items =>
      cases items with
      | null => exact hnothing
      | array items => rfl
      | _ => simp only [hheld] at h; cases h

theorem Loading.andThen_failed {loading : Loading} {next : Snapshot → Loading} {e : Error}
    (h : (loading.andThen next).failure = some e) :
    loading.failure = some e ∧ (loading.andThen next).snapshot = loading.snapshot ∨
      loading.failure = none ∧ (next loading.snapshot).failure = some e ∧
        (loading.andThen next).snapshot = (next loading.snapshot).snapshot := by
  rw [andThen] at h ⊢
  cases hfailure : loading.failure with
  | none => exact .inr ⟨rfl, by simpa only [hfailure] using h, rfl⟩
  | some first => exact .inl ⟨by simpa only [hfailure] using h, rfl⟩

theorem Loading.andThen_loaded {loading : Loading} {next : Snapshot → Loading}
    (h : (loading.andThen next).failure = none) :
    loading.failure = none ∧ (next loading.snapshot).failure = none ∧
      (loading.andThen next).snapshot = (next loading.snapshot).snapshot := by
  rw [andThen] at h ⊢
  cases hfailure : loading.failure with
  | none => exact ⟨rfl, by simpa only [hfailure] using h, rfl⟩
  | some first =>
      simp only [hfailure] at h
      exact absurd h (Option.some_ne_none first)

/-- A document is no snapshot if it is no object or has another format. -/
theorem rejection?_eq_some {document : Json} {fault : StorageFault}
    (h : rejection? document = some (.storage fault)) :
    fault = .notObject ∨ ∃ shown, fault = .unsupportedFormat shown := by
  rw [rejection?] at h
  split at h
  · cases h
    exact .inl rfl
  · split at h
    · cases h
    · split at h
      · cases h
      · split at h
        · cases h
          exact .inr ⟨_, rfl⟩
        · cases h

/-- A rejected document leaves nothing of what was held before. What is held then are the records of
the lists that come before the one that is no list, with the warnings about them, and there are none
if the document is no snapshot at all. -/
theorem held_after_rejection {document : Json} {before : Snapshot} {fault : StorageFault}
    (hrejected : (load document before).failure = some (.storage fault)) :
    let conditions := listed "conditions" Condition.ofJson document
    let effects := listed "effects" Effect.ofJson document
    let after := (load document before).snapshot
    (fault = .notObject ∨ (∃ shown, fault = .unsupportedFormat shown) ∨
          fault = .notArray "conditions") ∧
        after = ⟨before.origin, [], [], [], []⟩ ∨
      fault = .notArray "effects" ∧ after = ⟨before.origin, conditions.1, [], [], conditions.2⟩ ∨
      fault = .notArray "entities" ∧
        after = ⟨before.origin, conditions.1, effects.1, [], conditions.2 ++ effects.2⟩ := by
  intro conditions effects after
  simp only [after]
  rw [load] at hrejected ⊢
  cases hdocument : rejection? document with
  | some e =>
      simp only [hdocument] at hrejected ⊢
      obtain rfl := Option.some.inj hrejected
      exact .inl ⟨(rejection?_eq_some hdocument).imp_right .inl, rfl⟩
  | none =>
      simp only [hdocument] at hrejected ⊢
      -- the list that is rejected is the last that is looked at
      rcases Loading.andThen_failed hrejected with ⟨hthree, heq⟩ | ⟨-, hloaded, -⟩
      case inr => cases hloaded
      rw [heq]
      rcases Loading.andThen_failed hthree with ⟨htwo, heq⟩ | ⟨htwo, hthird, heq⟩
      · rw [heq]
        rcases Loading.andThen_failed htwo with ⟨hone, heq⟩ | ⟨hone, hsecond, heq⟩
        · obtain ⟨hfault, hheld⟩ := loadList_failed hone
          exact .inl ⟨.inr (.inr (Error.storage.inj hfault)), heq.trans hheld⟩
        · obtain ⟨hfault, hheld⟩ := loadList_failed hsecond
          exact .inr (.inl ⟨Error.storage.inj hfault,
            (heq.trans hheld).trans (loadList_loaded rfl hone)⟩)
      · obtain ⟨hfault, hheld⟩ := loadList_failed hthird
        obtain ⟨hone, hsecond, hsnapshot⟩ := Loading.andThen_loaded htwo
        refine .inr (.inr ⟨Error.storage.inj hfault, (heq.trans hheld).trans (hsnapshot.trans ?_)⟩)
        rw [loadList_loaded (by rw [loadList_loaded rfl hone]; rfl) hsecond, loadList_loaded rfl hone]
        rfl

/-- A snapshot with one condition is reloaded from a document with a readable and an unreadable
condition, whose effects are no list. The old condition is gone. -/
theorem held_after_rejection_effects :
    let toll : Condition :=
      ⟨"toll", "SETTLEMENT", none, [], .bool true, [], 0, true, 1, [], "main"⟩
    let document : Json := .object [
      ("conditions", .array [.object [("entityType", "SETTLEMENT"), ("id", "gate")], .null]),
      ("effects", .bool true)]
    let loading := load document { empty with conditions := [toll] }
    loading.failure = some (.storage (.notArray "effects")) ∧
      loading.snapshot.conditions.map Condition.id = [("gate" : Bytes)] ∧
      loading.snapshot.warnings = [("conditions[1]: Condition record must be an object" : Bytes)] := by
  intro toll document loading
  have hfailure : loading.failure = some (.storage (.notArray "effects")) := rfl
  rcases held_after_rejection hfailure with ⟨h | ⟨shown, h⟩ | h, -⟩ | ⟨-, hheld⟩ | ⟨h, -⟩
  · cases h
  · cases h
  · exact absurd (StorageFault.notArray.inj h) (by decide)
  · have hafter : loading.snapshot = _ := hheld
    rw [hafter]
    exact ⟨hfailure, by decide +kernel, by decide +kernel⟩
  · exact absurd (StorageFault.notArray.inj h) (by decide)

/-- None of the rejections keeps the condition that was held. -/
theorem condition_lost :
    let toll : Condition :=
      ⟨"toll", "SETTLEMENT", none, [], .bool true, [], 0, true, 1, [], "main"⟩
    let before : Snapshot := { empty with conditions := [toll] }
    let documents : List Json := [.array [], .object [("format", .unsigned 2)],
      .object [("conditions", .bool true)], .object [("effects", .bool true)],
      .object [("entities", .bool true)]]
    ∀ document ∈ documents,
      (∃ fault, (load document before).failure = some (.storage fault)) ∧
        (load document before).snapshot.conditions ≠ before.conditions := by
  intro toll before documents
  simp only [documents, List.forall_mem_cons]
  refine ⟨?_, ?_, ?_, ?_, ?_, fun _ h => absurd h List.not_mem_nil⟩
  all_goals exact ⟨⟨_, rfl⟩, fun h => absurd (congrArg List.length h) (by decide +kernel)⟩

end CampaignRules.Snapshot
