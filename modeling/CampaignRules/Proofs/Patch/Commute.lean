import CampaignRules.Proofs.Patch.Writes

/-! # Patches that commute

What a patch inside the variables does depends on the variables that it names, and it changes no
others. So on two documents that agree on these variables it succeeds alike and writes the same
values; and of two patches neither of which writes what the other one names, it does not matter which
comes first. -/

namespace CampaignRules.Patch

open Json (Members)

variable {index : Nat} {name entityType : Bytes} {names : List Bytes}
  {document middle other after payload : Json} {operation : Operation} {operations : List Operation}

/-- Both documents hold the same in the named variables. -/
structure Agree (names : List Bytes) (document other : Json) : Prop where
  left : HasVariables document
  right : HasVariables other
  same : ∀ name ∈ names, variableValue? name other = variableValue? name document

theorem Agree.symm (h : Agree names document other) : Agree names other document :=
  ⟨h.right, h.left, fun name hname => (h.same name hname).symm⟩

theorem Agree.put (h : Agree names document other) (name : Bytes) (slot : Option Json) :
    Agree names (putVariable name slot document) (putVariable name slot other) := by
  refine ⟨hasVariables_putVariable _ _ h.left, hasVariables_putVariable _ _ h.right, ?_⟩
  intro found hfound
  rw [variableValue?_putVariable _ _ h.left, variableValue?_putVariable _ _ h.right,
    h.same found hfound]

/-- A change of a variable in which the documents agree succeeds on both, and they agree afterwards. -/
theorem Agree.change {change : Json → Except Error Json} (h : Agree names document other)
    (hacts : ActsOn name change) (hname : name ∈ names) (hchange : change document = .ok after) :
    ∃ alike, change other = .ok alike ∧ Agree names after alike := by
  obtain ⟨act, hact⟩ := hacts
  rw [hact document h.left] at hchange
  rw [hact other h.right, h.same name hname]
  cases hslot : act (variableValue? name document) with
  | error e => simp [hslot, Except.map] at hchange
  | ok slot =>
      rw [hslot] at hchange
      cases hchange
      exact ⟨_, rfl, h.put name slot⟩

theorem Agree.valueAt_eq {path : Bytes} (h : Agree names document other)
    (hpath : variableOf path ≠ [] ∧ variableOf path ∈ names) :
    valueAt index path other = valueAt index path document :=
  valueAt_congr hpath.1 h.left h.right (h.same _ hpath.2)

theorem agree_operation (h : Agree names document other)
    (hplaces : ∀ place ∈ operation.places, variableOf place ≠ [] ∧ variableOf place ∈ names)
    (happly : operation.apply index document = .ok after) :
    ∃ alike, operation.apply index other = .ok alike ∧ Agree names after alike := by
  have hfirst := fun place rest (hop : operation.places = place :: rest) =>
    hplaces place (hop ▸ List.mem_cons_self)
  cases operation with
  | add path value =>
      have hpath := hfirst path [] rfl
      exact h.change (actsOn_addAt value hpath.1) hpath.2 happly
  | remove path =>
      have hpath := hfirst path [] rfl
      exact h.change (actsOn_removeAt hpath.1) hpath.2 happly
  | replace path value =>
      have hpath := hfirst path [] rfl
      exact h.change (actsOn_replaceAt value hpath.1) hpath.2 happly
  | copy source path =>
      have hpath := hplaces path (List.mem_cons_of_mem _ List.mem_cons_self)
      obtain ⟨value, hvalue, hadd⟩ := bind_eq_ok.1 happly
      obtain ⟨alike, halike, hagree⟩ := h.change (actsOn_addAt value hpath.1) hpath.2 hadd
      rw [← h.valueAt_eq (hfirst source [path] rfl)] at hvalue
      exact ⟨alike, bind_eq_ok.2 ⟨value, hvalue, halike⟩, hagree⟩
  | move source path =>
      have hsource := hfirst source [path] rfl
      have hpath := hplaces path (List.mem_cons_of_mem _ List.mem_cons_self)
      rw [Operation.apply] at happly ⊢
      split at happly
      · rename_i heq
        cases happly
        exact ⟨other, if_pos heq, h⟩
      · rename_i hne
        obtain ⟨value, hvalue, hmove⟩ := bind_eq_ok.1 happly
        obtain ⟨middle, hremove, hadd⟩ := bind_eq_ok.1 hmove
        obtain ⟨between, hbetween, hmiddle⟩ := h.change (actsOn_removeAt hsource.1) hsource.2 hremove
        obtain ⟨alike, halike, hagree⟩ := hmiddle.change (actsOn_addAt value hpath.1) hpath.2 hadd
        rw [← h.valueAt_eq hsource] at hvalue
        refine ⟨alike, (if_neg hne).trans (bind_eq_ok.2 ⟨value, hvalue, ?_⟩), hagree⟩
        exact bind_eq_ok.2 ⟨between, hbetween, halike⟩
  | test path value =>
      obtain ⟨actual, hactual, htest⟩ := bind_eq_ok.1 happly
      rw [← h.valueAt_eq (hfirst path [] rfl)] at hactual
      split at htest
      · rename_i hequal
        cases htest
        exact ⟨other, bind_eq_ok.2 ⟨actual, hactual, if_pos hequal⟩, h⟩
      · cases htest

theorem agree_applyFrom : ∀ {index : Nat} {document other : Json}, Agree names document other →
    (∀ operation ∈ operations, ∀ place ∈ operation.places,
      variableOf place ≠ [] ∧ variableOf place ∈ names) →
    (applyFrom index document operations).outcome = .ok after →
    ∃ alike, (applyFrom index other operations).outcome = .ok alike ∧
      Agree names after alike := by
  induction operations with
  | nil =>
      intro index document other h _ happly
      cases happly
      exact ⟨other, rfl, h⟩
  | cons operation rest ih =>
      intro index document other h hplaces happly
      rw [List.forall_mem_cons] at hplaces
      obtain ⟨middle, hfirst, hrest⟩ := applyFrom_cons_eq_ok_iff.1 happly
      obtain ⟨between, hbetween, hmiddle⟩ := agree_operation h hplaces.1 hfirst
      obtain ⟨alike, halike, hagree⟩ := ih hmiddle hplaces.2 hrest
      exact ⟨alike, applyFrom_cons_eq_ok_iff.2 ⟨between, hbetween, halike⟩, hagree⟩

/-- Every place that the operations name is inside a variable. -/
def InVariables (payload : Json) : Prop :=
  ∀ operation ∈ operationsOf payload, ∀ place ∈ operation.places, variableOf place ≠ []

theorem Operation.places_subset (operation : Operation) :
    operation.places ⊆ operation.changedPlaces ++ operation.inspectedPlaces := by
  cases operation <;> simp [places, changedPlaces, inspectedPlaces]

/-- The variables that a patch names are those that it writes or reads. -/
theorem variableOf_mem (hread : readFrom 0 (payload.items?.getD []) = .ok operations)
    (hoperation : operation ∈ operations) {place : Bytes} (hplace : place ∈ operation.places)
    (hname : variableOf place ≠ []) : variableOf place ∈ writes payload ++ reads payload := by
  rcases List.mem_append.1 (operation.places_subset hplace) with hchanged | hinspected
  · exact List.mem_append_left _
      ((mem_writes hread).2 ⟨operation, hoperation, hname, place, hchanged, rfl⟩)
  · exact List.mem_append_right _
      ((mem_reads hread).2 ⟨operation, hoperation, hname, place, hinspected, rfl⟩)

theorem agree_apply {applied : Applied} (hinside : InVariables payload)
    (h : Agree (writes payload ++ reads payload) document other)
    (happly : (apply document payload entityType).outcome = .ok applied) :
    ∃ alike, (apply other payload entityType).outcome = .ok alike ∧
      Agree (writes payload ++ reads payload) applied.document alike.document := by
  obtain ⟨hvalid, operations, hread, hrun, -⟩ := apply_eq_ok_iff.1 happly
  rw [InVariables, operationsOf_eq hread] at hinside
  obtain ⟨alike, halike, hagree⟩ := agree_applyFrom h (fun operation hoperation place hplace =>
    have hname := hinside operation hoperation place hplace
    ⟨hname, variableOf_mem hread hoperation hplace hname⟩) hrun
  exact ⟨⟨alike, .between other alike⟩,
    apply_eq_ok_iff.2 ⟨hvalid, operations, hread, halike, rfl⟩, hagree⟩

/-- The fields of the document are in order, and so are its variables. -/
structure InOrder (document : Json) : Prop where
  fields : Members.Sorted (document.members?.getD [])
  held : Members.Sorted (variablesOf document)

theorem inOrder_of_isCanonical (hcanonical : document.IsCanonical)
    (hvariables : HasVariables document) : InOrder document := by
  refine ⟨?_, sorted_variablesOf hcanonical⟩
  cases document with
  | object members => exact hcanonical.1
  | _ => cases hvariables.isObject

/-- A document in order is determined by its fields and its variables. -/
theorem eq_of_variables_eq (hvariables : HasVariables document) (hother : HasVariables other)
    (horder : InOrder document) (horder' : InOrder other)
    (hfields : ∀ field : Bytes, field ≠ "variables" → document.get? field = other.get? field)
    (hvalues : ∀ name, variableValue? name document = variableValue? name other) :
    document = other := by
  have hheld := Members.eq_of_get?_eq horder.held horder'.held hvalues
  have hget : ∀ field, document.get? field = other.get? field := by
    intro field
    by_cases hfield : field = "variables"
    · rw [hfield, hvariables.get?_eq, hother.get?_eq, hheld]
    · exact hfields field hfield
  cases document with
  | object members =>
      cases other with
      | object others =>
          have heq : members = others := Members.eq_of_get?_eq horder.fields horder'.fields hget
          rw [heq]
      | _ => cases hother.isObject
  | _ => cases hvariables.isObject

/-- The fields beside the variables are the same, and order is kept. -/
structure KeepsFields (document after : Json) : Prop where
  hasVariables : HasVariables after
  fields : ∀ field : Bytes, field ≠ "variables" → after.get? field = document.get? field
  inOrder : InOrder document → InOrder after

theorem KeepsFields.refl (hvariables : HasVariables document) : KeepsFields document document :=
  ⟨hvariables, fun _ _ => rfl, id⟩

theorem KeepsFields.trans (h : KeepsFields document middle) (h' : KeepsFields middle after) :
    KeepsFields document after :=
  ⟨h'.hasVariables, fun field hfield => (h'.fields field hfield).trans (h.fields field hfield),
    fun horder => h'.inOrder (h.inOrder horder)⟩

theorem keepsFields_put (hvariables : HasVariables document) (name : Bytes) (slot : Option Json) :
    KeepsFields document (putVariable name slot document) := by
  refine ⟨hasVariables_putVariable name slot hvariables, fun field hfield =>
    get?_putVariable_ne name slot hfield, fun horder => ⟨?_, ?_⟩⟩
  · cases document with
    | object members => exact Members.sorted_set _ _ horder.fields
    | _ => cases hvariables.isObject
  · rw [variablesOf_putVariable name slot hvariables]
    exact Members.sorted_put name slot horder.held

theorem Changed.keepsFields {places : List Bytes} (h : Changed places document after)
    (hvariables : HasVariables document) (hinside : ∀ place ∈ places, variableOf place ≠ []) :
    KeepsFields document after := by
  induction h with
  | refl => exact .refl hvariables
  | tail _ hlast ih =>
      obtain ⟨place, hmem, hchange⟩ := hlast
      obtain ⟨slot, rfl⟩ := hchange.exists_put ih.hasVariables (hinside place hmem)
      exact ih.trans (keepsFields_put ih.hasVariables (variableOf place) slot)

/-- A patch inside the variables changes those that it writes, and nothing else in the document. -/
theorem inside_apply {applied : Applied} (hvariables : HasVariables document)
    (hinside : InVariables payload)
    (happly : (apply document payload entityType).outcome = .ok applied) :
    Confined (writes payload) document applied.document ∧
      KeepsFields document applied.document := by
  have hchanged : ∀ operation ∈ operationsOf payload, ∀ place ∈ operation.changedPlaces,
      variableOf place ≠ [] := fun operation hoperation place hplace =>
    hinside operation hoperation place (operation.changedPlaces_subset hplace)
  refine ⟨confined_apply hvariables (fun operation hoperation place hplace _ =>
    hchanged operation hoperation place hplace) happly, ?_⟩
  obtain ⟨-, operations, hread, hrun, -⟩ := apply_eq_ok_iff.1 happly
  rw [operationsOf_eq hread] at hchanged
  refine (changed_applyFrom hrun).keepsFields hvariables fun place hmem => ?_
  obtain ⟨operation, hoperation, hplace⟩ := List.mem_flatMap.1 hmem
  exact hchanged operation hoperation place hplace

/-- What a patch does not write is the same before and after it. -/
theorem Confined.agree (h : Confined names document after) (hvariables : HasVariables document)
    {apart : List Bytes} (hapart : ∀ name ∈ names, name ∉ apart) : Agree apart document after :=
  ⟨hvariables, h.hasVariables, fun name hname => h.kept name fun hmem => hapart name hmem hname⟩

/-! ### Two patches -/

/-- Applies one patch after the other. -/
def applyInTurn (document first second : Json) (entityType : Bytes) : Except Error Json := do
  let applied ← (apply document first entityType).outcome
  let last ← (apply applied.document second entityType).outcome
  return last.document

/-- The first patch writes nothing that the second one writes or reads. -/
def Spares (first second : Json) : Prop :=
  ∀ name ∈ writes first, name ∉ writes second ++ reads second

theorem applyInTurn_swap {p q : Json} (hcanonical : document.IsCanonical)
    (hvariables : HasVariables document) (hp : InVariables p) (hq : InVariables q)
    (hpq : Spares p q) (hqp : Spares q p) (hturn : applyInTurn document p q entityType = .ok after) :
    applyInTurn document q p entityType = .ok after := by
  obtain ⟨afterP, hafterP, hrest⟩ := bind_eq_ok.1 hturn
  obtain ⟨last, hlast, heq⟩ := bind_eq_ok.1 hrest
  cases heq
  obtain ⟨hconfinedP, hfieldsP⟩ := inside_apply hvariables hp hafterP
  obtain ⟨hconfined, hfields⟩ := inside_apply hfieldsP.hasVariables hq hlast
  -- without the first patch the second does the same, and after it so does the first
  obtain ⟨afterQ, hafterQ, hagreeQ⟩ := agree_apply hq (hconfinedP.agree hvariables hpq).symm hlast
  obtain ⟨hconfinedQ, hfieldsQ⟩ := inside_apply hvariables hq hafterQ
  obtain ⟨last', hlast', hagreeP⟩ := agree_apply hp (hconfinedQ.agree hvariables hqp) hafterP
  obtain ⟨hconfined', hfields'⟩ := inside_apply hfieldsQ.hasVariables hp hlast'
  have hchanges := hfieldsP.trans hfields
  have hchanges' := hfieldsQ.trans hfields'
  have horder := inOrder_of_isCanonical hcanonical hvariables
  have hsame : last'.document = last.document := by
    refine eq_of_variables_eq hchanges'.hasVariables hchanges.hasVariables
      (hchanges'.inOrder horder) (hchanges.inOrder horder)
      (fun field hfield => (hchanges'.fields field hfield).trans (hchanges.fields field hfield).symm)
      fun name => ?_
    by_cases hnameP : name ∈ writes p
    · have hnameQ : name ∉ writes q := fun h => hpq name hnameP (List.mem_append_left _ h)
      calc variableValue? name last'.document = variableValue? name afterP.document :=
            hagreeP.same name (List.mem_append_left _ hnameP)
        _ = variableValue? name last.document := (hconfined.kept name hnameQ).symm
    · by_cases hnameQ : name ∈ writes q
      · calc variableValue? name last'.document = variableValue? name afterQ.document :=
              hconfined'.kept name hnameP
          _ = variableValue? name last.document :=
              hagreeQ.same name (List.mem_append_left _ hnameQ)
      · calc variableValue? name last'.document = variableValue? name afterQ.document :=
              hconfined'.kept name hnameP
          _ = variableValue? name document := hconfinedQ.kept name hnameQ
          _ = variableValue? name afterP.document := (hconfinedP.kept name hnameP).symm
          _ = variableValue? name last.document := (hconfined.kept name hnameQ).symm
  exact bind_eq_ok.2 ⟨afterQ, hafterQ, bind_eq_ok.2 ⟨last', hlast', by rw [hsame]; rfl⟩⟩

/-- Two patches inside the variables can be applied in either order if neither writes what the other
one writes or reads: the one order succeeds if the other does, and the documents are equal. -/
theorem disjoint_patches_commute (p q : Json) (entityType : Bytes) (hcanonical : document.IsCanonical)
    (hvariables : HasVariables document) (hp : InVariables p) (hq : InVariables q)
    (hpq : ∀ name ∈ writes p, name ∉ writes q ∧ name ∉ reads q)
    (hqp : ∀ name ∈ writes q, name ∉ writes p ∧ name ∉ reads p) :
    ∀ after, applyInTurn document p q entityType = .ok after ↔
      applyInTurn document q p entityType = .ok after := by
  have hspares : Spares p q := fun name hname => by simpa using hpq name hname
  have hspares' : Spares q p := fun name hname => by simpa using hqp name hname
  exact fun after => ⟨applyInTurn_swap hcanonical hvariables hp hq hspares hspares',
    applyInTurn_swap hcanonical hvariables hq hp hspares' hspares⟩

/-- Both patches test the season. One moves the gold into a chest, the other goes on with the log and
takes the food away. -/
theorem disjoint_patches_commute_season :
    let document : Json := .object [("id", "k1"), ("variables", .object [("chest", .object []),
      ("food", .unsigned 3), ("gold", .unsigned 7), ("log", .array [.unsigned 1]),
      ("season", "dry")])]
    let season : Json := .object [("op", "test"), ("path", "/variables/season"), ("value", "dry")]
    let p : Json := .array [season, .object [("from", "/variables/gold"), ("op", "move"),
      ("path", "/variables/chest/gold")]]
    let q : Json := .array [season, .object [("op", "remove"), ("path", "/variables/food")],
      .object [("op", "add"), ("path", "/variables/log/0"), ("value", .unsigned 2)]]
    ∃ after, applyInTurn document p q [] = .ok after ∧ applyInTurn document q p [] = .ok after ∧
      variableValue? "gold" after = none ∧ variableValue? "food" after = none := by
  intro document season p q
  obtain ⟨after, hturn, hgone⟩ := exists_ok_of_any (applyInTurn document p q [])
    (fun after => (variableValue? "gold" after).isNone && (variableValue? "food" after).isNone)
    (by decide +kernel)
  simp only [Bool.and_eq_true, Option.isNone_iff_eq_none] at hgone
  have hcanonical : document.IsCanonical := by
    simp only [document, Json.IsCanonical, Json.MembersCanonical, Json.ItemsCanonical,
      Members.Sorted]
    decide
  have hswap := disjoint_patches_commute p q [] hcanonical ⟨_, rfl⟩
    (by unfold InVariables; decide +kernel) (by unfold InVariables; decide +kernel)
    (by decide +kernel) (by decide +kernel) after
  exact ⟨after, hturn, hswap.1 hturn, hgone⟩

end CampaignRules.Patch
