import CampaignRules.Proofs.Json.Equality
import CampaignRules.Proofs.Patch.Failure
import CampaignRules.Proofs.Patch.Variables

/-! # Declared writes

The variables that a patch writes are read off its wire form, without regard to what happens when it
is carried out. They cover what does happen: whatever the operations are, the patch comes down to
changes at places that they name, each of which is inside one of these variables or outside all
variables. -/

namespace CampaignRules.Patch

open Json (Members)

variable {index : Nat} {place name entityType : Bytes} {document middle after wire payload : Json}
  {operation : Operation} {operations : List Operation}

/-- The place is inside a variable if it is in the field of the variables at all. -/
def IsProper (place : Bytes) : Prop :=
  place ≠ [] ∧ (topField place = "variables" → variableOf place ≠ [])

theorem ActsOn.exists_put {change : Json → Except Error Json} (h : ActsOn name change)
    (hvariables : HasVariables document) (hchange : change document = .ok after) :
    ∃ slot, after = putVariable name slot document := by
  obtain ⟨act, hact⟩ := h
  rw [hact document hvariables] at hchange
  cases hslot : act (variableValue? name document) with
  | error e => simp [hslot, Except.map] at hchange
  | ok slot =>
      rw [hslot] at hchange
      cases hchange
      exact ⟨slot, rfl⟩

/-- A change inside a variable is one of its slot. -/
theorem PlaceChange.exists_put (h : PlaceChange place document after)
    (hvariables : HasVariables document) (hname : variableOf place ≠ []) :
    ∃ slot, after = putVariable (variableOf place) slot document := by
  cases h with
  | added hadd => exact (actsOn_addAt _ hname).exists_put hvariables hadd
  | removed hremove => exact (actsOn_removeAt hname).exists_put hvariables hremove
  | replaced hreplace => exact (actsOn_replaceAt _ hname).exists_put hvariables hreplace

/-- No variable but the named ones has changed, and the order of names is kept. -/
structure Confined (names : List Bytes) (document after : Json) : Prop where
  hasVariables : HasVariables after
  kept : ∀ name ∉ names, variableValue? name after = variableValue? name document
  sorted : Members.Sorted (variablesOf document) → Members.Sorted (variablesOf after)

theorem Confined.refl {names : List Bytes} (hvariables : HasVariables document) :
    Confined names document document :=
  ⟨hvariables, fun _ _ => rfl, id⟩

theorem Confined.trans {names : List Bytes} (h : Confined names document middle)
    (h' : Confined names middle after) : Confined names document after :=
  ⟨h'.hasVariables, fun name hname => (h'.kept name hname).trans (h.kept name hname),
    fun hsorted => h'.sorted (h.sorted hsorted)⟩

theorem PlaceChange.confined {names : List Bytes} (h : PlaceChange place document after)
    (hvariables : HasVariables document) (hproper : IsProper place)
    (hname : variableOf place ≠ [] → variableOf place ∈ names) : Confined names document after := by
  by_cases hinside : variableOf place = []
  · have hkeeps := (h.keeps hvariables.isObject
      ⟨hproper.1, fun htop => hproper.2 htop hinside⟩ : Keeps "variables" document after)
    have hsame := variablesOf_congr hkeeps.2
    refine ⟨hvariables.congr hkeeps.2, fun name _ => ?_, fun hsorted => hsame ▸ hsorted⟩
    rw [variableValue?, variableValue?, hsame]
  · obtain ⟨slot, rfl⟩ := h.exists_put hvariables hinside
    refine ⟨hasVariables_putVariable _ slot hvariables, fun name hother => ?_, fun hsorted => ?_⟩
    · rw [variableValue?_putVariable _ slot hvariables, if_neg]
      rintro rfl
      exact hother (hname hinside)
    · rw [variablesOf_putVariable _ slot hvariables]
      exact Members.sorted_put _ slot hsorted

theorem Changed.confined {places names : List Bytes} (h : Changed places document after)
    (hvariables : HasVariables document) (hproper : ∀ place ∈ places, IsProper place)
    (hnames : ∀ place ∈ places, variableOf place ≠ [] → variableOf place ∈ names) :
    Confined names document after := by
  induction h with
  | refl => exact .refl hvariables
  | tail _ hlast ih =>
      obtain ⟨place, hmem, hchange⟩ := hlast
      exact ih.trans
        (hchange.confined ih.hasVariables (hproper place hmem) (hnames place hmem))

/-- The place that a value is taken from. -/
def Operation.source? : Operation → Option Bytes
  | .copy source _ | .move source _ => some source
  | _ => none

/-- The places that an operation looks at. -/
def Operation.inspectedPlaces : Operation → List Bytes
  | .copy source _ | .move source _ => [source]
  | .test path _ => [path]
  | _ => []

/-- An operation that was read has its parts in the fields of the wire form. -/
theorem fields_of_ofJson (hread : Operation.ofJson index wire = .ok operation) :
    kindOf? wire = some operation.kind ∧ wire.get? "path" = some (.string operation.path) ∧
      ∀ source ∈ operation.source?, wire.get? "from" = some (.string source) := by
  cases wire with
  | object members =>
      rw [Operation.ofJson] at hread
      split at hread
      case h_2 => cases hread
      case h_1 text hop =>
        split at hread
        case h_1 => cases hread
        case h_2 kind hkind =>
          split at hread
          case h_2 => cases hread
          case h_1 path hpath =>
            have hwire : kindOf? (.object members) = some kind := by
              simp [kindOf?, Json.getText?, Json.get?, hop, Json.text?, hkind]
            simp only at hread
            split at hread
            all_goals cases hread
            case h_5 source hsource | h_6 source hsource =>
              refine ⟨hwire, hpath, fun found hfound => ?_⟩
              cases hfound
              exact Json.bind_text?_eq_some_iff.1 hsource
            all_goals
              refine ⟨hwire, hpath, fun _ hfound => ?_⟩
              cases hfound
  | _ => cases hread

theorem mem_variableIn {field : String} {pointer : Bytes}
    (hget : wire.get? field = some (.string pointer)) :
    name ∈ variableIn field wire ↔ name ≠ [] ∧ name = variableOf pointer := by
  rw [variableIn, hget]
  by_cases hname : variableOf pointer = [] <;> simp [hname]
  rintro rfl
  exact hname

theorem mem_operationWrites (hread : Operation.ofJson index wire = .ok operation) :
    name ∈ operationWrites wire ↔
      name ≠ [] ∧ ∃ place ∈ operation.changedPlaces, name = variableOf place := by
  obtain ⟨hkind, hpath, hsource⟩ := fields_of_ofJson hread
  have hpath : name ∈ variableIn "path" wire ↔ name ≠ [] ∧ name = variableOf operation.path :=
    mem_variableIn hpath
  rw [operationWrites, hkind]
  cases operation with
  | test path value => simp [Operation.kind, Operation.changedPlaces]
  | move source path =>
      have hsource : name ∈ variableIn "from" wire ↔ name ≠ [] ∧ name = variableOf source :=
        mem_variableIn (hsource source rfl)
      simp only [Operation.path] at hpath
      simp only [Operation.kind, Operation.changedPlaces, List.mem_append, hpath, hsource,
        List.exists_mem_cons_iff, List.not_mem_nil, false_and, exists_false, or_false]
      rw [← and_or_left, or_comm]
  | _ => simpa [Operation.kind, Operation.path, Operation.changedPlaces] using hpath

theorem mem_operationReads (hread : Operation.ofJson index wire = .ok operation) :
    name ∈ operationReads wire ↔
      name ≠ [] ∧ ∃ place ∈ operation.inspectedPlaces, name = variableOf place := by
  obtain ⟨hkind, hpath, hsource⟩ := fields_of_ofJson hread
  rw [operationReads, hkind]
  cases operation with
  | test path value =>
      simpa [Operation.kind, Operation.path, Operation.inspectedPlaces] using mem_variableIn hpath
  | copy source path | move source path =>
      simpa [Operation.kind, Operation.inspectedPlaces] using mem_variableIn (hsource source rfl)
  | _ => simp [Operation.kind, Operation.inspectedPlaces]

/-- What is gathered from the wire forms of operations that were read is gathered from the
operations. -/
theorem mem_flatMap_of_readFrom {gather : Json → List Bytes} {Gathers : Operation → Prop}
    (hgather : ∀ {index wire operation}, Operation.ofJson index wire = .ok operation →
      (name ∈ gather wire ↔ Gathers operation)) {wires : List Json} :
    ∀ {index : Nat} {operations : List Operation}, readFrom index wires = .ok operations →
      (name ∈ wires.flatMap gather ↔ ∃ operation ∈ operations, Gathers operation) := by
  induction wires with
  | nil =>
      intro index operations hread
      cases hread
      simp
  | cons wire rest ih =>
      intro index operations hread
      obtain ⟨operation, later, hfirst, hlater, rfl⟩ := readFrom_cons_eq_ok_iff.1 hread
      rw [List.flatMap_cons, List.mem_append, hgather hfirst, ih hlater, List.exists_mem_cons_iff]

theorem mem_writes (hread : readFrom 0 (payload.items?.getD []) = .ok operations) :
    name ∈ writes payload ↔ ∃ operation ∈ operations,
      name ≠ [] ∧ ∃ place ∈ operation.changedPlaces, name = variableOf place := by
  rw [writes, Bytes.mem_sortedSet]
  exact mem_flatMap_of_readFrom mem_operationWrites hread

theorem mem_reads (hread : readFrom 0 (payload.items?.getD []) = .ok operations) :
    name ∈ reads payload ↔ ∃ operation ∈ operations,
      name ≠ [] ∧ ∃ place ∈ operation.inspectedPlaces, name = variableOf place := by
  rw [reads, Bytes.mem_sortedSet]
  exact mem_flatMap_of_readFrom mem_operationReads hread

theorem place_ne_nil_of_apply {applied : Applied} {operations : List Operation}
    (hread : readFrom 0 (payload.items?.getD []) = .ok operations)
    (happly : (apply document payload entityType).outcome = .ok applied) :
    ∀ operation ∈ operations, ∀ place ∈ operation.places, place ≠ [] := by
  obtain ⟨found, hfound, hfaults, -⟩ := exists_operations happly
  cases hread.symm.trans hfound
  intro operation hmem place hplace
  exact (pathFault?_eq_none_iff.1 (hfaults operation hmem place hplace)).1.1

/-- A patch that names places inside variables or outside all of them is confined to the variables
that it writes. -/
theorem confined_apply {applied : Applied} (hvariables : HasVariables document)
    (hplaces : ∀ operation ∈ operationsOf payload, ∀ place ∈ operation.changedPlaces,
      topField place = "variables" → variableOf place ≠ [])
    (happly : (apply document payload entityType).outcome = .ok applied) :
    Confined (writes payload) document applied.document := by
  obtain ⟨-, operations, hread, hrun, -⟩ := apply_eq_ok_iff.1 happly
  rw [operationsOf_eq hread] at hplaces
  refine (changed_applyFrom hrun).confined hvariables ?_ ?_
  · intro place hmem
    obtain ⟨operation, hoperation, hplace⟩ := List.mem_flatMap.1 hmem
    exact ⟨place_ne_nil_of_apply hread happly operation hoperation place
      (operation.changedPlaces_subset hplace), hplaces operation hoperation place hplace⟩
  · intro place hmem hname
    obtain ⟨operation, hoperation, hplace⟩ := List.mem_flatMap.1 hmem
    exact (mem_writes hread).2 ⟨operation, hoperation, hname, place, hplace, rfl⟩

/-! ### Differences -/

/-- The variables that a diff is about. -/
def Diff.variableNames (diff : Diff) : List Bytes :=
  Members.keys diff.added ++ diff.modified.map (·.1) ++ diff.removed

theorem nanFree_of_variableValue? {value : Json} (hfree : document.NanFree)
    (hvalue : variableValue? name document = some value) : value.NanFree := by
  rw [variableValue?, variablesOf] at hvalue
  split at hvalue
  · rename_i held hheld
    have hvariables := Json.nanFree_of_get? hfree hheld
    exact Json.nanFree_of_get? hvariables hvalue
  · cases hvalue

theorem changeOf_eq_some_iff {old : Members} {value : Json} {change : Change} :
    Diff.changeOf old name value = some change ↔
      Members.get? name old = some change.old ∧ value = change.new ∧
        change.old.equal change.new = false := by
  obtain ⟨first, last⟩ := change
  rw [Diff.changeOf]
  cases Members.get? name old with
  | none => simp
  | some held =>
      by_cases hequal : held.equal value
      · simp only [hequal, if_true, Option.some.injEq]
        grind
      · simp only [hequal, Option.some.injEq]
        grind

theorem mem_removed_iff : name ∈ (Diff.between document after).removed ↔
    variableValue? name after = none ∧ variableValue? name document ≠ none := by
  simp only [Diff.between, List.mem_filter, Bool.not_eq_true', Members.contains_eq_false_iff, Members.mem_keys_iff,
    variableValue?, and_comm]

section

variable (hafter : Members.Sorted (variablesOf after))

include hafter

theorem mem_added_iff {value : Json} : (name, value) ∈ (Diff.between document after).added ↔
    variableValue? name after = some value ∧ variableValue? name document = none := by
  simp only [Diff.between, List.mem_filter, Bool.not_eq_true', Members.contains_eq_false_iff, variableValue?,
    Members.get?_eq_some_iff hafter]

theorem mem_modified_iff {change : Change} : (name, change) ∈ (Diff.between document after).modified ↔
    variableValue? name after = some change.new ∧ variableValue? name document = some change.old ∧
      change.old.equal change.new = false := by
  simp only [Diff.between, List.mem_filterMap, Option.map_eq_some_iff, changeOf_eq_some_iff,
    Prod.exists, Prod.mk.injEq, variableValue?, Members.get?_eq_some_iff hafter]
  grind

/-- The variables of a diff are those that differ. -/
theorem mem_variableNames_iff : name ∈ (Diff.between document after).variableNames ↔
    Diff.fieldDiffers (variablesOf document) (variablesOf after) name = true := by
  simp only [Diff.variableNames, Members.keys, List.mem_append, List.mem_map, Prod.exists,
    exists_and_right, exists_eq_right, mem_added_iff hafter, mem_modified_iff hafter,
    mem_removed_iff, Diff.fieldDiffers, variableValue?]
  cases Members.get? name (variablesOf document) with
  | none => cases Members.get? name (variablesOf after) <;> simp
  | some first =>
      cases Members.get? name (variablesOf after) with
      | none => simp
      | some last =>
          have hchange : (∃ change : Change, last = change.new ∧ first = change.old ∧
              change.old.equal change.new = false) ↔ first.equal last = false := by
            constructor
            · rintro ⟨change, rfl, rfl, hdiffer⟩
              exact hdiffer
            · exact fun hdiffer => ⟨⟨first, last⟩, rfl, rfl, hdiffer⟩
          simpa using hchange

end

/-- A diff is about variables only that were found, lost or given another value. -/
theorem variableValue?_ne_of_mem_variableNames (hsorted : Members.Sorted (variablesOf after))
    (hfree : document.NanFree) (hmem : name ∈ (Diff.between document after).variableNames) :
    variableValue? name after ≠ variableValue? name document := by
  intro hsame
  have hdiffers := (mem_variableNames_iff hsorted).1 hmem
  have hget : Members.get? name (variablesOf after) = Members.get? name (variablesOf document) := hsame
  rw [Diff.fieldDiffers, hget] at hdiffers
  cases hvalue : Members.get? name (variablesOf document) with
  | none => simp [hvalue] at hdiffers
  | some value =>
      -- equality is not reflexive on NaN, so that a variable may differ from itself
      have hequal := Json.equal_self (nanFree_of_variableValue? hfree hvalue)
      simp [hvalue, hequal] at hdiffers

theorem sorted_variablesOf (hcanonical : document.IsCanonical) :
    Members.Sorted (variablesOf document) := by
  rw [variablesOf]
  split
  · rename_i held hheld
    exact (Json.isCanonical_of_get? hcanonical hheld).1
  · exact .nil

/-- Whatever a patch does to the variables of a document, its declared writes cover: a variable that
is not among them has the same value as before, or is still missing, and the diff is about none but
them, if the document has the form of one that was read. The only places that are ruled out are the
field of variables as a whole and the variable without a name. -/
theorem writes_cover_changes {applied : Applied} (hvariables : HasVariables document)
    (hplaces : ∀ operation ∈ operationsOf payload, ∀ place ∈ operation.changedPlaces,
      topField place = "variables" → variableOf place ≠ [])
    (happly : (apply document payload entityType).outcome = .ok applied) :
    (∀ name ∉ writes payload,
      variableValue? name applied.document = variableValue? name document) ∧
    (document.Regular → ∀ name ∈ applied.diff.variableNames, name ∈ writes payload) := by
  have hconfined := confined_apply hvariables hplaces happly
  refine ⟨hconfined.kept, fun hregular name hmem => ?_⟩
  obtain ⟨-, -, -, -, hdiff⟩ := apply_eq_ok_iff.1 happly
  have hsorted := hconfined.sorted (sorted_variablesOf hregular.isCanonical)
  by_contra hname
  exact variableValue?_ne_of_mem_variableNames hsorted hregular.nanFree (hdiff ▸ hmem)
    (hconfined.kept name hname)

/-- Gold is moved into a list the name of which is written with an escape, and a field outside the
variables takes a copy of all of them. -/
theorem writes_cover_changes_ledger :
    let document : Json := .object [("id", "k1"), ("variables", .object
      [("a/b", .array [.unsigned 1]), ("food", .float 2.5), ("gold", .unsigned 7)])]
    let payload : Json := .array
      [.object [("from", "/variables/gold"), ("op", "move"), ("path", "/variables/a~1b/0")],
        .object [("from", "/variables"), ("op", "copy"), ("path", "/backup")]]
    ∃ applied, (apply document payload "KINGDOM").outcome = .ok applied ∧
      applied.document.hasKey "backup" ∧ applied.diff.variableNames = ["a/b", "gold"] ∧
      (∀ name ∈ applied.diff.variableNames, name ∈ writes payload) ∧
      variableValue? "food" applied.document = variableValue? "food" document := by
  intro document payload
  obtain ⟨applied, happly, hresult⟩ := exists_ok_of_any (apply document payload "KINGDOM").outcome
    (fun applied => applied.document.hasKey "backup" &&
      applied.diff.variableNames = [Bytes.ofString "a/b", Bytes.ofString "gold"]) (by decide +kernel)
  simp only [Bool.and_eq_true, decide_eq_true_eq] at hresult
  obtain ⟨hkept, hcovered⟩ := writes_cover_changes ⟨_, rfl⟩ (by decide +kernel) happly
  refine ⟨applied, happly, hresult.1, hresult.2, hcovered ⟨?_, ?_⟩, hkept "food" (by decide +kernel)⟩
  · simp only [document, Json.IsCanonical, Json.MembersCanonical, Json.ItemsCanonical,
      Members.Sorted]
    decide
  · simp only [document, Json.NanFree, Json.MembersNanFree, Json.ItemsNanFree]
    decide

end CampaignRules.Patch
