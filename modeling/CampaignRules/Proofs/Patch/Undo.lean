import CampaignRules.Proofs.Json.Pointer
import CampaignRules.Proofs.Patch.Syntax
import CampaignRules.Proofs.Patch.Writes

/-! # Additions taken back

An addition gives the object or the array that holds the place one more entry. Erasing that entry
leaves the container as it was, and what the rest of the document holds was never touched. So a removal
takes back an addition at the same place, unless the addition replaced a member or its place is the end
of an array, which is another one afterwards. -/

namespace CampaignRules.Patch

open Json (Members)

variable {index index' : Nat} {path name entityType : Bytes} {document after value wire : Json}

/-- The last token of a path. -/
def lastToken? (path : Bytes) : Option Bytes :=
  (Json.Pointer.parse path).toOption.bind List.getLast?

/-- The path names a member of some object in the document. -/
def namesMember (path : Bytes) (document : Json) : Bool :=
  match Json.Pointer.parse path with
  | .ok pointer =>
    match document.at? pointer.dropLast, pointer.getLast? with
    | .ok (.object members), some name => Members.contains name members
    | _, _ => false
  | .error _ => false

/-- Erasing what was inserted leaves the container as it was. -/
theorem eraseFrom_insertInto {held changed : Json} (hcanonical : held.IsCanonical)
    (hname : name ≠ "-") (hnew : ∀ members, held = .object members → Members.get? name members = none)
    (hinsert : insertInto index path name value held = .ok changed) :
    eraseFrom index' path name changed = .ok held := by
  cases held with
  | object members =>
      cases hinsert
      have hcontains : Members.contains name (Members.set name value members) := by
        rw [Members.contains, Members.get?_set, if_pos rfl, Option.isSome_some]
      rw [eraseFrom, if_pos hcontains, Members.erase_set hcanonical.1 (hnew members rfl)]
  | array items =>
      rw [insertInto, if_neg hname] at hinsert
      obtain ⟨position, hposition, hrest⟩ := bind_eq_ok.1 hinsert
      cases position with
      | none => cases hrest
      | some n =>
          simp only at hrest
          split at hrest
          · rename_i hle
            cases hrest
            refine bind_eq_ok.2 ⟨some n, hposition, ?_⟩
            -- the array is longer by one, so the position is inside even where it was the end
            have hlt : n < (items.insertIdx n value).length := by
              rw [List.length_insertIdx_of_le_length hle]
              exact Nat.lt_succ_of_le hle
            simp only [if_pos hlt, List.eraseIdx_insertIdx_self]
            rfl
          · cases hrest
  | _ => cases hinsert

/-- A removal takes back the addition at its place. -/
theorem removeAt_addAt (hcanonical : document.IsCanonical)
    (hlast : lastToken? path ≠ some (Bytes.ofString "-")) (hnew : namesMember path document = false)
    (hadd : addAt index path value document = .ok after) :
    removeAt index' path after = .ok document := by
  obtain ⟨⟨parent, name⟩, hparent, hchange⟩ := bind_eq_ok.1 hadd
  have hparse := parentAndName_eq_ok_iff.1 hparent
  rw [lastToken?, hparse] at hlast
  rw [namesMember, hparse] at hnew
  simp only [Except.toOption, Option.bind_some, List.getLast?_concat, List.dropLast_concat,
    Ne, Option.some.injEq] at hlast hnew
  refine bind_eq_ok.2 ⟨(parent, name), parentAndName_eq_ok_iff.2 hparse, ?_⟩
  refine Json.updateAt_undo hcanonical (fun held changed hheld hinner hinsert => ?_) hchange
  refine eraseFrom_insertInto hinner hlast (fun members hmembers => ?_) hinsert
  rw [hmembers] at hheld
  simpa [hheld, Members.contains] using hnew

/-- A document does not differ from itself. -/
theorem Diff.between_self (hregular : document.Regular) : Diff.between document document = .empty := by
  have hnames : (Diff.between document document).variableNames = [] := by
    refine List.eq_nil_iff_forall_not_mem.2 fun name hname => ?_
    exact variableValue?_ne_of_mem_variableNames (sorted_variablesOf hregular.isCanonical)
      hregular.nanFree hname rfl
  have hfields : (Diff.between document document).changedFields = [] := by
    cases document with
    | object members =>
        refine List.filter_eq_nil_iff.2 fun key _ => ?_
        rw [fieldDiffers]
        cases hget : Members.get? key members with
        | none => exact Bool.false_ne_true
        | some held =>
            have hheld : (Json.object members).get? key = some held := hget
            simp [Json.equal_self (Json.nanFree_of_get? hregular.nanFree hheld)]
    | _ => simp [between, fieldsChanged, Json.equal_self hregular.nanFree]
  simp only [variableNames, Members.keys, List.append_eq_nil_iff, List.map_eq_nil_iff] at hnames
  cases hdiff : Diff.between document document with
  | mk added modified removed changedFields =>
      rw [hdiff] at hnames hfields
      obtain ⟨⟨rfl, rfl⟩, rfl⟩ := hnames
      obtain rfl := hfields
      rfl

/-- A removal has no faults but those of its path. -/
theorem checkOperation_of_remove (hread : Operation.ofJson index wire = .ok (.remove path))
    (hpath : pathFault? entityType path = none) : (checkOperation entityType wire).1 = [] :=
  checkOperation_of_path hread rfl hpath

/-- If an addition is carried out on a document, so is the addition followed by a removal at the same
place, and the document is what it was. The two places that are ruled out are the end of an array as
such and a member that is there already. The diff is empty; only in a document with a NaN, which no
text spells, a value would differ from itself. -/
theorem remove_undoes_add {addition removal : Json} {added : Applied}
    (hcanonical : document.IsCanonical)
    (hread : readFrom 0 [addition, removal] = .ok [.add path value, .remove path])
    (hlast : lastToken? path ≠ some (Bytes.ofString "-")) (hnew : namesMember path document = false)
    (hadd : (apply document (.array [addition]) entityType).outcome = .ok added) :
    ∃ restored, (apply document (.array [addition, removal]) entityType).outcome = .ok restored ∧
      restored.document = document ∧ (document.NanFree → restored.diff = .empty) := by
  obtain ⟨operation, later, haddition, hlater, heq⟩ := readFrom_cons_eq_ok_iff.1 hread
  cases heq
  obtain ⟨operation, _, hremoval, -, heq⟩ := readFrom_cons_eq_ok_iff.1 hlater
  cases heq
  obtain ⟨hvalid, operations, hreadFirst, hrun, -⟩ := apply_eq_ok_iff.1 hadd
  have hfaults := problems_eq_nil_iff.1 (List.isEmpty_iff.1 hvalid) addition List.mem_cons_self
  have hpath := pathFault?_of_checkOperation hfaults haddition path List.mem_cons_self
  have hvalid' : (check (.array [addition, removal]) entityType).isValid := by
    refine List.isEmpty_iff.2 (problems_eq_nil_iff.2 ?_)
    simpa using ⟨hfaults, checkOperation_of_remove hremoval hpath⟩
  have hadded : addAt 0 path value document = .ok added.document := by
    have hreadFirst' : readFrom 0 [addition] = .ok [.add path value] :=
      readFrom_cons_eq_ok_iff.2 ⟨_, _, haddition, rfl, rfl⟩
    cases hreadFirst.symm.trans hreadFirst'
    obtain ⟨after, hafter, hdone⟩ := applyFrom_cons_eq_ok_iff.1 hrun
    cases hdone
    exact hafter
  have hremoved : removeAt 1 path added.document = .ok document :=
    removeAt_addAt hcanonical hlast hnew hadded
  have hboth : (applyFrom 0 document [.add path value, .remove path]).outcome = .ok document :=
    applyFrom_cons_eq_ok_iff.2 ⟨_, hadded, applyFrom_cons_eq_ok_iff.2 ⟨_, hremoved, rfl⟩⟩
  exact ⟨⟨document, .between document document⟩, apply_eq_ok_iff.2 ⟨hvalid', _, hread, hboth, rfl⟩,
    rfl, fun hfree => Diff.between_self ⟨hcanonical, hfree⟩⟩

/-- A text comes last in a list inside a list, which is held under a name that is written with an
escape. -/
theorem remove_undoes_add_nested :
    let document : Json := .object [("id", "k1"), ("variables", .object
      [("a/b", .array [.array [.unsigned 1, .float 2.5], .null])])]
    let path : Bytes := "/variables/a~1b/0/2"
    let addition : Json := .object [("op", "add"), ("path", .string path), ("value", "new")]
    let removal : Json := .object [("op", "remove"), ("path", .string path)]
    ∃ added restored, (apply document (.array [addition]) "KINGDOM").outcome = .ok added ∧
      added.diff.variableNames = ["a/b"] ∧
      (apply document (.array [addition, removal]) "KINGDOM").outcome = .ok restored ∧
      restored.document = document ∧ restored.diff = .empty := by
  intro document path addition removal
  obtain ⟨added, hadd, hdiff⟩ := exists_ok_of_any
    (apply document (.array [addition]) "KINGDOM").outcome
    (fun added => added.diff.variableNames = [Bytes.ofString "a/b"]) (by decide +kernel)
  have hcanonical : document.IsCanonical := by
    simp only [document, Json.IsCanonical, Json.MembersCanonical, Json.ItemsCanonical,
      Members.Sorted]
    decide
  have hread : readFrom 0 [addition, removal] = .ok [.add path "new", .remove path] := rfl
  obtain ⟨restored, happly, hdocument, hempty⟩ := remove_undoes_add hcanonical hread
    (by decide +kernel) (by decide +kernel) hadd
  refine ⟨added, restored, hadd, of_decide_eq_true hdiff, happly, hdocument, hempty ?_⟩
  simp only [document, Json.NanFree, Json.MembersNanFree, Json.ItemsNanFree]
  decide

end CampaignRules.Patch
