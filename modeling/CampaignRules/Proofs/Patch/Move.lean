import Mathlib.Data.List.InsertIdx
import CampaignRules.Proofs.Json.Pointer
import CampaignRules.Proofs.Patch.Syntax
import CampaignRules.Proofs.Patch.Writes

/-! # Moves

A move takes the value at its source out of the document and adds it at its path, in this order, so that
its path is looked up in a document in which the source is missing. That is what a removal and an
addition do one after the other. Only a move from a place to itself takes a shorter way: it does not look
at the place at all. Where there is a value, taking it out and putting it back comes to the same; where
there is none, such a move succeeds although there is nothing to move. -/

namespace CampaignRules.Patch

open Json (Members)

variable {index index' : Nat} {path source name entityType : Bytes}
  {document middle after value held changed wire : Json}

/-- The path leads to the value. -/
def LeadsTo (path : Bytes) (document value : Json) : Prop :=
  ∃ pointer, Json.Pointer.parse path = .ok pointer ∧ document.at? pointer = .ok value

/-- What holds the place that a path names. -/
def holder? (path : Bytes) (document : Json) : Option Json :=
  (Json.Pointer.parse path).toOption.bind fun pointer => (document.at? pointer.dropLast).toOption

/-- If the place is in an array, its position there fits into a word, as it does for every array that
a machine can hold. -/
def IsAddressable (path : Bytes) (document : Json) : Prop :=
  ∀ items, holder? path document = some (.array items) → items.length ≤ power 2 64

theorem valueAt_eq_ok_iff : valueAt index path document = .ok value ↔ LeadsTo path document value := by
  rw [valueAt, pointerOf, bind_eq_ok]
  simp only [mapError_eq_ok, LeadsTo]

theorem holder?_eq {parent : Json.Pointer} (hparse : Json.Pointer.parse path = .ok (parent ++ [name]))
    (hheld : document.at? parent = .ok held) : holder? path document = some held := by
  rw [holder?, hparse]
  simp [Except.toOption, hheld]

/-- A position that can be looked up is a numeral without a leading zero. -/
theorem numeral_of_index {size n : Nat} (hindex : Json.Pointer.index size name = .ok n) :
    (name.isEmpty || !name.all Bytes.isDigit) = false ∧
      ¬(name.length > 1 ∧ name.head? = some '0'.toUInt8) ∧ Bytes.decimalValue name = n ∧ n < size := by
  unfold Json.Pointer.index at hindex
  rcases name with _ | ⟨b, _ | ⟨c, rest⟩⟩
  · cases hindex
  · grind
  · have hzero : ¬ '1'.toUInt8 ≤ '0'.toUInt8 := by decide
    grind

/-- A token that is looked up as a position is taken for the same position in a change. -/
theorem arrayPosition?_of_index {size n : Nat} (hindex : Json.Pointer.index size name = .ok n)
    (hwords : size ≤ power 2 64) : n < size ∧ arrayPosition? name = .ok (some n) := by
  obtain ⟨hdigits, hleading, rfl, hlt⟩ := numeral_of_index hindex
  refine ⟨hlt, ?_⟩
  rw [arrayPosition?, if_neg (by simp [hdigits]), if_neg (by simpa using hleading),
    if_pos (hlt.trans_le hwords)]

theorem ne_dash_of_index {size n : Nat} (hindex : Json.Pointer.index size name = .ok n) :
    name ≠ "-" := by
  rintro rfl
  cases hindex

/-- What a container holds can be erased. -/
theorem exists_eraseFrom (hwords : ∀ items, held = .array items → items.length ≤ power 2 64)
    (hchild : Json.Pointer.child name held = .ok value) :
    ∃ changed, eraseFrom index path name held = .ok changed := by
  cases held with
  | object members =>
      have hget := Json.Pointer.child_object_eq_ok_iff.1 hchild
      exact ⟨_, if_pos (by rw [Members.contains, hget, Option.isSome_some])⟩
  | array items =>
      obtain ⟨n, hindex, -⟩ := Json.Pointer.child_array_eq_ok_iff.1 hchild
      obtain ⟨hlt, hposition⟩ := arrayPosition?_of_index hindex (hwords items rfl)
      exact ⟨_, bind_eq_ok.2 ⟨some n, hposition, if_pos hlt⟩⟩
  | _ => cases hchild

/-- What was erased can be inserted again, and then the container is as it was. -/
theorem insertInto_eraseFrom (hcanonical : held.IsCanonical)
    (hwords : ∀ items, held = .array items → items.length ≤ power 2 64)
    (hchild : Json.Pointer.child name held = .ok value)
    (herase : eraseFrom index path name held = .ok changed) :
    insertInto index' path name value changed = .ok held := by
  cases held with
  | object members =>
      have hget := Json.Pointer.child_object_eq_ok_iff.1 hchild
      rw [eraseFrom] at herase
      split at herase
      · cases herase
        rw [insertInto, Members.set_erase hcanonical.1 hget]
      · cases herase
  | array items =>
      obtain ⟨n, hindex, hitem⟩ := Json.Pointer.child_array_eq_ok_iff.1 hchild
      obtain ⟨hlt, hposition⟩ := arrayPosition?_of_index hindex (hwords items rfl)
      obtain ⟨-, rfl⟩ := List.getElem?_eq_some_iff.1 hitem
      have herased : eraseFrom index path name (.array items) = .ok (.array (items.eraseIdx n)) :=
        bind_eq_ok.2 ⟨some n, hposition, if_pos hlt⟩
      cases herase.symm.trans herased
      -- the array is shorter by one, so the position may be its end now
      have hle : n ≤ (items.eraseIdx n).length := by
        rw [List.length_eraseIdx_of_lt hlt]
        exact Nat.le_sub_one_of_lt hlt
      rw [insertInto, if_neg (ne_dash_of_index hindex)]
      refine bind_eq_ok.2 ⟨some n, hposition, (if_pos hle).trans ?_⟩
      rw [List.insertIdx_eraseIdx_getElem hlt]
      rfl
  | _ => cases hchild

/-- The last token of a path names the value in what holds it. -/
theorem LeadsTo.exists_holder (h : LeadsTo path document value) (hpath : path ≠ []) :
    ∃ parent name held, Json.Pointer.parse path = .ok (parent ++ [name]) ∧
      document.at? parent = .ok held ∧ Json.Pointer.child name held = .ok value := by
  obtain ⟨pointer, hparse, hvalue⟩ := h
  obtain ⟨rest, rfl⟩ := exists_tokens hpath hparse
  rw [← List.dropLast_concat_getLast (List.cons_ne_nil (topField path) rest)] at hparse hvalue
  obtain ⟨held, hheld, hchild⟩ := Json.at?_concat_eq_ok_iff.1 hvalue
  exact ⟨_, _, held, hparse, hheld, hchild⟩

theorem exists_removeAt (h : LeadsTo path document value) (hpath : path ≠ [])
    (hwords : IsAddressable path document) : ∃ after, removeAt index path document = .ok after := by
  obtain ⟨parent, name, held, hparse, hheld, hchild⟩ := h.exists_holder hpath
  obtain ⟨changed, herase⟩ : ∃ changed, eraseFrom index path name held = .ok changed :=
    exists_eraseFrom (fun items hitems => hwords items (hitems ▸ holder?_eq hparse hheld)) hchild
  obtain ⟨after, hafter⟩ := Json.exists_updateAt_of_at? herase hheld
  exact ⟨after, bind_eq_ok.2 ⟨(parent, name), parentAndName_eq_ok_iff.2 hparse, hafter⟩⟩

/-- Putting a value back where it was taken out gives the document that it was taken out of. -/
theorem addAt_removeAt (h : LeadsTo path document value) (hpath : path ≠ [])
    (hcanonical : document.IsCanonical) (hwords : IsAddressable path document)
    (hremove : removeAt index path document = .ok after) :
    addAt index' path value after = .ok document := by
  obtain ⟨parent, name, held, hparse, hheld, hchild⟩ := h.exists_holder hpath
  obtain ⟨_, hparent, herase⟩ := bind_eq_ok.1 hremove
  cases hparent.symm.trans (parentAndName_eq_ok_iff.2 hparse)
  refine bind_eq_ok.2 ⟨(parent, name), parentAndName_eq_ok_iff.2 hparse, ?_⟩
  refine Json.updateAt_undo hcanonical (fun inner changed hinner hsorted hchanged => ?_) herase
  cases hinner.symm.trans hheld
  exact insertInto_eraseFrom hsorted
    (fun items hitems => hwords items (hitems ▸ holder?_eq hparse hheld)) hchild hchanged

/-- The position of an operation in its patch matters for its failures only. -/
theorem addAt_mono (hadd : addAt index path value document = .ok after) (index' : Nat) :
    addAt index' path value document = .ok after := by
  obtain ⟨⟨parent, name⟩, hparent, hchange⟩ := bind_eq_ok.1 hadd
  have hparse := parentAndName_eq_ok_iff.1 hparent
  refine bind_eq_ok.2 ⟨(parent, name), parentAndName_eq_ok_iff.2 hparse, ?_⟩
  refine Json.updateAt_mono (fun held changed hinsert => ?_) hchange
  cases held with
  | object members => exact hinsert
  | array items =>
      rw [insertInto] at hinsert ⊢
      split at hinsert
      · rename_i hend
        rwa [if_pos hend]
      · rename_i hend
        obtain ⟨position, hposition, hrest⟩ := bind_eq_ok.1 hinsert
        rw [if_neg hend]
        refine bind_eq_ok.2 ⟨position, hposition, ?_⟩
        cases position with
        | none => cases hrest
        | some n =>
            dsimp only at hrest ⊢
            split at hrest
            · rename_i hle
              rwa [if_pos hle]
            · cases hrest
  | _ => cases hinsert

/-! ### Patches -/

theorem Operation.ofJson_toJson (index : Nat) (operation : Operation) :
    Operation.ofJson index operation.toJson = .ok operation := by
  cases operation <;> rfl

/-- A patch with one operation does what the operation does. -/
theorem outcome_apply_singleton (hvalid : (check (.array [wire]) entityType).isValid)
    {operation : Operation} (hread : Operation.ofJson 0 wire = .ok operation) :
    (apply document (.array [wire]) entityType).outcome =
      (operation.apply 0 document).map fun after => ⟨after, .between document after⟩ := by
  have hreads : readFrom 0 [wire] = .ok [operation] :=
    readFrom_cons_eq_ok_iff.2 ⟨operation, [], hread, rfl, rfl⟩
  rw [apply, if_pos hvalid, Recorded.outcome_bind]
  show (readFrom 0 [wire]).bind _ = _
  rw [hreads]
  show (applyFrom 0 document [operation] >>= _).outcome = _
  rw [applyFrom]
  cases operation.apply 0 document <;> rfl

theorem apply_singleton_eq_ok_iff (hvalid : (check (.array [wire]) entityType).isValid)
    {operation : Operation} (hread : Operation.ofJson 0 wire = .ok operation) {applied : Applied} :
    (apply document (.array [wire]) entityType).outcome = .ok applied ↔
      operation.apply 0 document = .ok applied.document ∧
        applied.diff = .between document applied.document := by
  rw [outcome_apply_singleton hvalid hread]
  obtain ⟨after, diff⟩ := applied
  cases operation.apply 0 document with
  | error e => simp [Except.map]
  | ok done =>
      simp only [Except.map, Except.ok.injEq, Applied.mk.injEq]
      constructor
      · rintro ⟨rfl, rfl⟩
        exact ⟨rfl, rfl⟩
      · rintro ⟨rfl, rfl⟩
        exact ⟨rfl, rfl⟩

/-- The patch that removes what the source names, and then adds a value at the path. -/
def removeThenAdd (source path : Bytes) (value : Json) : Json :=
  .array [(Operation.remove source).toJson, (Operation.add path value).toJson]

theorem apply_removeThenAdd_eq_ok_iff {applied : Applied}
    (hsource : pathFault? entityType source = none) (hpath : pathFault? entityType path = none) :
    (apply document (removeThenAdd source path value) entityType).outcome = .ok applied ↔
      (∃ middle, removeAt 0 source document = .ok middle ∧
        addAt 1 path value middle = .ok applied.document) ∧
      applied.diff = .between document applied.document := by
  have hremoval := Operation.ofJson_toJson 0 (.remove source)
  have haddition := Operation.ofJson_toJson 1 (.add path value)
  have hread : readFrom 0 [(Operation.remove source).toJson, (Operation.add path value).toJson] =
      .ok [.remove source, .add path value] :=
    readFrom_cons_eq_ok_iff.2 ⟨_, _, hremoval, readFrom_cons_eq_ok_iff.2 ⟨_, _, haddition, rfl, rfl⟩, rfl⟩
  have hvalid : (check (removeThenAdd source path value) entityType).isValid := by
    refine List.isEmpty_iff.2 (problems_eq_nil_iff.2 ?_)
    simpa using ⟨checkOperation_of_path hremoval rfl hsource, checkOperation_of_path haddition rfl hpath⟩
  have hrun : ∀ after, (applyFrom 0 document [.remove source, .add path value]).outcome = .ok after ↔
      ∃ middle, removeAt 0 source document = .ok middle ∧ addAt 1 path value middle = .ok after := by
    intro after
    simp only [applyFrom_cons_eq_ok_iff, Operation.apply]
    simp [applyFrom]
  rw [apply_eq_ok_iff]
  constructor
  · rintro ⟨-, operations, hoperations, hafter, hdiff⟩
    cases hread.symm.trans hoperations
    exact ⟨(hrun _).1 hafter, hdiff⟩
  · rintro ⟨hsteps, hdiff⟩
    exact ⟨hvalid, _, hread, (hrun _).2 hsteps, hdiff⟩

theorem LeadsTo.unique {other : Json} (h : LeadsTo path document value)
    (h' : LeadsTo path document other) : value = other := by
  have hvalue : valueAt 0 path document = .ok value := valueAt_eq_ok_iff.2 h
  exact Except.ok.inj (hvalue.symm.trans (valueAt_eq_ok_iff.2 h'))

/-- Where there is a value to move, a move is a removal and then an addition. -/
theorem apply_move_eq_ok_iff (hvalue : LeadsTo source document value) (hsource : source ≠ [])
    (hcanonical : document.IsCanonical) (hwords : IsAddressable source document) :
    (Operation.move source path).apply index document = .ok after ↔
      ∃ middle, removeAt index source document = .ok middle ∧
        addAt index' path value middle = .ok after := by
  rw [Operation.apply]
  split
  · rename_i heq
    subst heq
    constructor
    · intro hafter
      cases hafter
      obtain ⟨middle, hremove⟩ := exists_removeAt hvalue hsource hwords
      exact ⟨middle, hremove, addAt_removeAt hvalue hsource hcanonical hwords hremove⟩
    · rintro ⟨middle, hremove, hadd⟩
      exact (addAt_removeAt hvalue hsource hcanonical hwords hremove).symm.trans hadd
  · constructor
    · intro hmove
      obtain ⟨found, hfound, hmove⟩ := bind_eq_ok.1 hmove
      obtain ⟨middle, hremove, hadd⟩ := bind_eq_ok.1 hmove
      cases hvalue.unique (valueAt_eq_ok_iff.1 hfound)
      exact ⟨middle, hremove, addAt_mono hadd index'⟩
    · rintro ⟨middle, hremove, hadd⟩
      exact bind_eq_ok.2 ⟨value, valueAt_eq_ok_iff.2 hvalue,
        bind_eq_ok.2 ⟨middle, hremove, addAt_mono hadd index⟩⟩

/-- Where there is none, a move to another place fails. -/
theorem apply_move_of_missing {pointer : Json.Pointer} (hsource : Json.Pointer.parse source = .ok pointer)
    (hmissing : ∀ value, ¬LeadsTo source document value) (hne : source ≠ path) :
    ∃ detail, (Operation.move source path).apply index document =
      .error (notFound index source detail) := by
  cases hlookup : document.at? pointer with
  | ok value => exact absurd ⟨pointer, hsource, hlookup⟩ (hmissing value)
  | error failure =>
      refine ⟨.lookup failure, ?_⟩
      rw [Operation.apply, if_neg hne, valueAt, pointerOf, hsource]
      show ((document.at? pointer).mapError _ >>= _) = _
      rw [hlookup]
      rfl

/-- A move from a place in the document to another place, or to itself, is carried out if and only if
there is a value at its source and the removal of the source followed by the addition of this value at
its path is carried out, and then the two come to the same document and the same diff. If there is no
value at the source, the move fails with a place that is not found. The one case that is left out is a
move from a place to itself where there is nothing. -/
theorem move_eq_remove_then_add {moving : Json} (hcanonical : document.IsCanonical)
    (hwords : IsAddressable source document)
    (hread : Operation.ofJson 0 moving = .ok (.move source path))
    (hvalid : (check (.array [moving]) entityType).isValid)
    (hplace : source = path → ∃ value, LeadsTo source document value) :
    ((∃ moved, (apply document (.array [moving]) entityType).outcome = .ok moved) ↔
      ∃ value stepped, LeadsTo source document value ∧
        (apply document (removeThenAdd source path value) entityType).outcome = .ok stepped) ∧
    (∀ value moved stepped, LeadsTo source document value →
      (apply document (.array [moving]) entityType).outcome = .ok moved →
      (apply document (removeThenAdd source path value) entityType).outcome = .ok stepped →
      stepped = moved) ∧
    ((∀ value, ¬LeadsTo source document value) →
      ∃ e, (apply document (.array [moving]) entityType).outcome = .error e ∧
        e.kind? = some .pathNotFound) := by
  have hfaults := problems_eq_nil_iff.1 (List.isEmpty_iff.1 hvalid) moving List.mem_cons_self
  have hplaces := pathFault?_of_checkOperation hfaults hread
  have hsource := hplaces source List.mem_cons_self
  have hpath := hplaces path (List.mem_cons_of_mem _ List.mem_cons_self)
  obtain ⟨pointer, hpointer⟩ := exists_parse_of_pathFault? hsource
  have hroot : source ≠ [] := (pathFault?_eq_none_iff.1 hsource).1.1
  have hmove : ∀ {value}, LeadsTo source document value → ∀ {after},
      (Operation.move source path).apply 0 document = .ok after ↔
        ∃ middle, removeAt 0 source document = .ok middle ∧ addAt 1 path value middle = .ok after :=
    fun hvalue => apply_move_eq_ok_iff hvalue hroot hcanonical hwords
  have hmissing : (∀ value, ¬LeadsTo source document value) → ∃ detail,
      (Operation.move source path).apply 0 document = .error (notFound 0 source detail) := by
    intro hmissing
    refine apply_move_of_missing hpointer hmissing fun heq => ?_
    obtain ⟨value, hvalue⟩ := hplace heq
    exact hmissing value hvalue
  simp only [apply_singleton_eq_ok_iff hvalid hread, apply_removeThenAdd_eq_ok_iff hsource hpath]
  refine ⟨⟨?_, ?_⟩, ?_, fun hnone => ?_⟩
  · rintro ⟨moved, hmoved, hdiff⟩
    by_cases hvalue : ∃ value, LeadsTo source document value
    · obtain ⟨value, hvalue⟩ := hvalue
      exact ⟨value, moved, hvalue, (hmove hvalue).1 hmoved, hdiff⟩
    · obtain ⟨detail, herror⟩ := hmissing (not_exists.1 hvalue)
      cases hmoved.symm.trans herror
  · rintro ⟨value, stepped, hvalue, hsteps, hdiff⟩
    exact ⟨stepped, (hmove hvalue).2 hsteps, hdiff⟩
  · rintro value moved stepped hvalue ⟨hmoved, hdiff⟩ ⟨hsteps, hdiff'⟩
    have hdocument := Except.ok.inj (((hmove hvalue).2 hsteps).symm.trans hmoved)
    rw [hdocument, ← hdiff] at hdiff'
    cases stepped
    cases moved
    cases hdocument
    cases hdiff'
    rfl
  · obtain ⟨detail, herror⟩ := hmissing hnone
    rw [outcome_apply_singleton hvalid hread, herror]
    exact ⟨_, rfl, rfl⟩

/-- The first item of a list is moved behind the others: the positions have shifted when it is added,
and the end of the list is one place further to the front. -/
theorem move_eq_remove_then_add_queue :
    let document : Json := .object [("id", "k1"), ("variables", .object
      [("queue", .array [.unsigned 1, .float 2.5, .null])])]
    let source : Bytes := "/variables/queue/0"
    let path : Bytes := "/variables/queue/2"
    let moving := (Operation.move source path).toJson
    ∃ moved, (apply document (.array [moving]) "KINGDOM").outcome = .ok moved ∧
      (apply document (removeThenAdd source path (.unsigned 1)) "KINGDOM").outcome = .ok moved ∧
      moved.document.equal (.object [("id", "k1"), ("variables", .object
        [("queue", .array [.float 2.5, .null, .unsigned 1])])]) := by
  intro document source path moving
  have hvalue : LeadsTo source document (.unsigned 1) := ⟨_, rfl, rfl⟩
  have hcanonical : document.IsCanonical := by
    simp only [document, Json.IsCanonical, Json.MembersCanonical, Json.ItemsCanonical,
      Members.Sorted]
    decide
  have hwords : IsAddressable source document := by
    intro items hitems
    cases hitems
    decide
  obtain ⟨stepped, hstepped, hdocument⟩ := exists_ok_of_any
    (apply document (removeThenAdd source path (.unsigned 1)) "KINGDOM").outcome
    (fun stepped => stepped.document.equal (.object [("id", "k1"), ("variables", .object
        [("queue", .array [.float 2.5, .null, .unsigned 1])])])) (by decide +kernel)
  have hvalid : (check (.array [moving]) "KINGDOM").isValid := by decide +kernel
  obtain ⟨happlies, hsame, -⟩ := move_eq_remove_then_add hcanonical hwords
    (Operation.ofJson_toJson 0 (.move source path)) hvalid fun _ => ⟨_, hvalue⟩
  obtain ⟨moved, hmoved⟩ := happlies.2 ⟨_, stepped, hvalue, hstepped⟩
  cases hsame _ moved stepped hvalue hmoved hstepped
  exact ⟨stepped, hmoved, hstepped, hdocument⟩

/-- A move of nothing from a place to itself is carried out, though the removal fails that it begins
with. -/
theorem move_of_nothing :
    let document : Json := .object [("variables", .object [])]
    let place : Bytes := "/variables/gold"
    let moving := (Operation.move place place).toJson
    (check (.array [moving]) []).isValid ∧ (∀ value, ¬LeadsTo place document value) ∧
      (∃ moved, (apply document (.array [moving]) []).outcome = .ok moved ∧
        moved.document = document) ∧
      ∀ value stepped, (apply document (removeThenAdd place place value) []).outcome ≠ .ok stepped := by
  intro document place moving
  have hmissing : ∀ value, ¬LeadsTo place document value := by
    rintro value ⟨pointer, hparse, hvalue⟩
    cases hparse
    cases hvalue
  refine ⟨by decide +kernel, hmissing, ⟨_, rfl, rfl⟩, fun value stepped hstepped => ?_⟩
  obtain ⟨⟨middle, hremove, -⟩, -⟩ :=
    (apply_removeThenAdd_eq_ok_iff (by decide +kernel) (by decide +kernel)).1 hstepped
  cases hremove

end CampaignRules.Patch
