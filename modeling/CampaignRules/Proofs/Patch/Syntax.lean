import CampaignRules.Proofs.Patch.Failure
import CampaignRules.Proofs.Patch.Protection

/-! # Syntax faults

A patch is checked as a whole, then read operation by operation, and its pointers are read once more
when it is carried out. The three agree: where the check finds nothing, every operation can be read and
every pointer in it is well formed. What else goes wrong with a place, a token that cannot be a position
included, is a place that is not found. So a patch has a fault of syntax exactly if the check says so. -/

namespace CampaignRules.Patch

variable {index : Nat} {entityType path : Bytes} {document payload wire : Json}
  {operation : Operation}

theorem exists_parse_of_isPointerText (hpath : isPointerText path) :
    ∃ pointer, Json.Pointer.parse path = .ok pointer := by
  rw [isPointerText, Bool.and_eq_true, decide_eq_true_eq] at hpath
  obtain ⟨rest, rfl⟩ := List.head?_eq_some_iff.1 hpath.1
  exact ⟨_, if_pos (by simp [hpath.2])⟩

theorem exists_parse_of_pathFault? (hfault : pathFault? entityType path = none) :
    ∃ pointer, Json.Pointer.parse path = .ok pointer :=
  exists_parse_of_isPointerText (pathFault?_eq_none_iff.1 hfault).2.1

theorem exists_value_of_contains {kind : Kind} {members : Json.Members}
    (hvalue : (if kind.needsValue && !Json.Members.contains "value" members then
      [Fault.missingValue kind] else []) = []) (hkind : kind.needsValue) :
    ∃ value, Json.Members.get? "value" members = some value := by
  rw [hkind, Bool.true_and] at hvalue
  split at hvalue
  · cases hvalue
  · rename_i hcontains
    rw [Bool.not_eq_true', Bool.not_eq_false] at hcontains
    exact Option.isSome_iff_exists.1 hcontains

theorem exists_source_of_checkSource {kind : Kind} {members : Json.Members}
    (hsource : (checkSource entityType kind path members).1 = []) (hkind : kind.needsSource) :
    ∃ source, (Json.Members.get? "from" members).bind Json.text? = some source := by
  rw [checkSource, if_pos hkind] at hsource
  split at hsource
  · cases hsource
  · rename_i source hfrom
    exact ⟨source, by rw [hfrom]; rfl⟩
  · cases hsource

/-- An operation without faults can be read. -/
theorem exists_ofJson_of_checkOperation (hfaults : (checkOperation entityType wire).1 = [])
    (index : Nat) : ∃ operation, Operation.ofJson index wire = .ok operation := by
  cases wire with
  | object members =>
      rw [checkOperation] at hfaults
      split at hfaults
      case h_2 => cases hfaults
      case h_1 name hop =>
        split at hfaults
        case h_1 => cases hfaults
        case h_2 kind hkind =>
          split at hfaults
          case h_1 => cases hfaults
          case h_3 => cases hfaults
          case h_2 path hpath =>
            simp only [List.append_eq_nil_iff] at hfaults
            obtain ⟨⟨hvalue, -⟩, hsource⟩ := hfaults
            simp only [Operation.ofJson, hop, hkind, hpath]
            cases kind with
            | add | replace | test =>
                obtain ⟨value, hvalue⟩ := exists_value_of_contains hvalue rfl
                rw [hvalue]
                exact ⟨_, rfl⟩
            | remove => exact ⟨_, rfl⟩
            | copy | move =>
                obtain ⟨source, hsource⟩ := exists_source_of_checkSource hsource rfl
                rw [hsource]
                exact ⟨_, rfl⟩
  | _ => cases hfaults

/-- An operation that takes no value from elsewhere has no faults but those of its path. -/
theorem checkOperation_of_path (hread : Operation.ofJson index wire = .ok operation)
    (hplaces : operation.places = [operation.path])
    (hpath : pathFault? entityType operation.path = none) :
    (checkOperation entityType wire).1 = [] := by
  cases wire with
  | object members =>
      rw [Operation.ofJson] at hread
      rw [checkOperation]
      split at hread
      case h_2 => cases hread
      case h_1 name hop =>
        split at hread
        case h_1 => cases hread
        case h_2 kind hkind =>
          split at hread
          case h_2 => cases hread
          case h_1 path htext =>
            simp only at hread
            split at hread
            all_goals cases hread
            case h_5 | h_6 => simp [Operation.places] at hplaces
            all_goals
              rename_i hvalue
              replace hpath : pathFault? entityType path = none := hpath
              simp [checkPath, checkSource, Kind.needsValue, Kind.needsSource,
                Json.Members.contains, *]
  | _ => cases hread

/-- With well-formed pointers an operation has no fault of syntax, whatever the document. -/
theorem not_syntax_of_operation (hplaces : ∀ place ∈ operation.places,
    ∃ pointer, Json.Pointer.parse place = .ok pointer) (index : Nat) (document : Json) :
    FailsOnly (fun e => e.kind? ≠ some .invalidPatchSyntax) (operation.apply index document) := by
  refine failsOnly_operation (fun place hplace => ⟨?_, fun detail => ?_⟩) (fun _ _ _ => ?_)
    (fun path => ?_) document
  · obtain ⟨pointer, hpointer⟩ := hplaces place hplace
    rw [pointerOf, hpointer]
    exact .ok pointer
  all_goals exact fun hkind => by cases hkind

theorem problems_eq_nil_iff {wires : List Json} {index : Nat} :
    (Check.ofOperations entityType index wires).problems = [] ↔
      ∀ wire ∈ wires, (checkOperation entityType wire).1 = [] := by
  induction wires generalizing index with
  | nil => simp [Check.ofOperations]
  | cons wire rest ih =>
      simp only [Check.ofOperations, List.append_eq_nil_iff, List.map_eq_nil_iff, ih,
        List.forall_mem_cons]

theorem exists_readFrom {wires : List Json}
    (hfaults : ∀ wire ∈ wires, (checkOperation entityType wire).1 = []) (index : Nat) :
    ∃ operations, readFrom index wires = .ok operations := by
  induction wires generalizing index with
  | nil => exact ⟨[], rfl⟩
  | cons wire rest ih =>
      rw [List.forall_mem_cons] at hfaults
      obtain ⟨operation, hread⟩ := exists_ofJson_of_checkOperation hfaults.1 index
      obtain ⟨operations, hrest⟩ := ih hfaults.2 (index + 1)
      exact ⟨_, readFrom_cons_eq_ok_iff.2 ⟨operation, operations, hread, hrest, rfl⟩⟩

theorem not_syntax_of_isValid (hvalid : (check payload entityType).isValid) (document : Json) :
    FailsOnly (fun e => e.kind? ≠ some .invalidPatchSyntax)
      (apply document payload entityType).outcome := by
  cases payload with
  | array wires =>
      have hproblems : (Check.ofOperations entityType 0 wires).problems = [] := List.isEmpty_iff.1 hvalid
      obtain ⟨operations, hread⟩ := exists_readFrom (problems_eq_nil_iff.1 hproblems) 0
      have hfaults := pathFault?_of_ofOperations hproblems hread
      rw [apply, if_pos hvalid, Recorded.outcome_bind, Recorded.outcome_ofExcept]
      refine FailsOnly.bind_of_ok (fun e he => ?_) fun operations' hread' => ?_
      · cases hread.symm.trans he
      · cases hread.symm.trans hread'
        rw [Recorded.outcome_bind]
        refine FailsOnly.bind (failsOnly_applyFrom (fun operation hmem => ?_) 0 document) fun _ => .ok _
        exact not_syntax_of_operation fun place hplace =>
          exists_parse_of_pathFault? (hfaults operation hmem place hplace)
  | _ => cases hvalid

/-- Whatever the document, a patch fails with a fault of syntax if and only if the check finds a problem.
Where it finds none, the payload is a list each entry of which can be read as an operation, at whatever
position, and every pointer in it is well formed. -/
theorem syntax_faults_exact (document payload : Json) (entityType : Bytes) :
    ((∃ e, (apply document payload entityType).outcome = .error e ∧
        e.kind? = some .invalidPatchSyntax) ↔ (check payload entityType).isValid = false) ∧
      ((check payload entityType).isValid → ∃ wires, payload = .array wires ∧
        ∀ wire ∈ wires, ∀ index, ∃ operation, Operation.ofJson index wire = .ok operation ∧
          ∀ place ∈ operation.places, ∃ pointer, Json.Pointer.parse place = .ok pointer) := by
  constructor
  · cases hvalid : (check payload entityType).isValid with
    | false =>
        refine iff_of_true ⟨.invalidPatch (check payload entityType).problems, ?_, rfl⟩ rfl
        rw [apply, if_neg (by rw [hvalid]; exact Bool.false_ne_true)]
        rfl
    | true =>
        refine iff_of_false ?_ Bool.noConfusion
        rintro ⟨e, happly, hkind⟩
        exact not_syntax_of_isValid hvalid document e happly hkind
  · intro hvalid
    cases payload with
    | array wires =>
        refine ⟨wires, rfl, fun wire hwire index => ?_⟩
        have hfaults := problems_eq_nil_iff.1 (List.isEmpty_iff.1 hvalid) wire hwire
        obtain ⟨operation, hread⟩ := exists_ofJson_of_checkOperation hfaults index
        exact ⟨operation, hread, fun place hplace =>
          exists_parse_of_pathFault? (pathFault?_of_checkOperation hfaults hread place hplace)⟩
    | _ => cases hvalid

/-- A token that no position in an array has is no fault of syntax, but a tilde that begins no escape
is. -/
theorem syntax_faults_exact_positions :
    let document : Json := .object [("variables", .object [("list", .array [.unsigned 1])])]
    let removal : Bytes → Json := fun path => .object [("op", "remove"), ("path", path)]
    let leading : Json := .array [removal "/variables/list/01/a~1b"]
    let tilde : Json := .array [removal "/variables/list/~2"]
    ((check leading []).isValid ∧
      (∃ operation, Operation.ofJson 0 (removal "/variables/list/01/a~1b") = .ok operation) ∧
      ∃ e, (apply document leading []).outcome = .error e ∧ e.kind? = some .pathNotFound) ∧
      (check tilde []).isValid = false ∧
        ∃ e, (apply document tilde []).outcome = .error e ∧ e.kind? = some .invalidPatchSyntax := by
  intro document removal leading tilde
  have hleading : (check leading []).isValid := by decide +kernel
  have htilde : (check tilde []).isValid = false := by decide +kernel
  obtain ⟨wires, hwires, hread⟩ := (syntax_faults_exact document leading []).2 hleading
  obtain rfl : [removal "/variables/list/01/a~1b"] = wires := Json.array.inj hwires
  obtain ⟨operation, hoperation, -⟩ := hread _ List.mem_cons_self 0
  obtain ⟨e, happly, hkind⟩ := exists_error_of_any (apply document leading []).outcome
    (fun e => e.kind? = some .pathNotFound) (by decide +kernel)
  exact ⟨⟨hleading, ⟨operation, hoperation⟩, e, happly, of_decide_eq_true hkind⟩, htilde,
    (syntax_faults_exact document tilde []).1.2 htilde⟩

end CampaignRules.Patch
