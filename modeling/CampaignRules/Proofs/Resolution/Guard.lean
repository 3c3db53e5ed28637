import CampaignRules.Proofs.Expr.Reads
import CampaignRules.Proofs.Graph.Rebuild
import CampaignRules.Proofs.Patch.Variables
import CampaignRules.Proofs.Resolution.Attempt

/-! # What guards depend on

A guard sees the variables of the entity under their names, and once more inside the whole document,
which has the name of the type. The graph has an edge for the variable at the start of each path. So a
variable without such an edge cannot change what the guard comes to, unless a path goes through the
document to reach it. -/

namespace CampaignRules

open Json (Members)

namespace Json.Members

variable {key : Bytes} {extra : Members}

theorem get?_foldl_set_of_not_mem (hkey : key ∉ keys extra) (members : Members) :
    get? key (extra.foldl (fun members m => set m.1 m.2 members) members) = get? key members := by
  induction extra generalizing members with
  | nil => rfl
  | cons first rest ih =>
      obtain ⟨hfirst, hrest⟩ := not_or.1 (mt List.mem_cons.2 hkey)
      rw [List.foldl_cons, ih hrest, get?_set_ne hfirst]

/-- A key that is set does not depend on what was there before. -/
theorem get?_foldl_set_of_mem (hkey : key ∈ keys extra) (a b : Members) :
    get? key (extra.foldl (fun members m => set m.1 m.2 members) a) =
      get? key (extra.foldl (fun members m => set m.1 m.2 members) b) := by
  induction extra generalizing a b with
  | nil => exact absurd hkey List.not_mem_nil
  | cons first rest ih =>
      by_cases hrest : key ∈ keys rest
      · exact ih hrest _ _
      · have hfirst : key = first.1 := (List.mem_cons.1 hkey).resolve_right hrest
        rw [List.foldl_cons, List.foldl_cons, get?_foldl_set_of_not_mem hrest,
          get?_foldl_set_of_not_mem hrest, get?_set, get?_set, if_pos hfirst, if_pos hfirst]

end Json.Members

namespace Patch

/-- The documents are the same but for the value of one variable, which one of them may not have. -/
structure DifferOnlyIn (name : Bytes) (document other : Json) : Prop where
  left : HasVariables document
  right : HasVariables other
  fields : ∀ field : Bytes, field ≠ "variables" → document.get? field = other.get? field
  values : ∀ found, found ≠ name → variableValue? found document = variableValue? found other

theorem differOnlyIn_putVariable {document : Json} (h : HasVariables document) (name : Bytes)
    (slot : Option Json) : DifferOnlyIn name document (putVariable name slot document) where
  left := h
  right := hasVariables_putVariable name slot h
  fields _ hne := (get?_putVariable_ne name slot hne).symm
  values found hne := by rw [variableValue?_putVariable name slot h, if_neg hne]

variable {name : Bytes} {document other : Json}

theorem step?_eq_get? (hobject : document.isObject) (segment : Bytes) :
    document.step? segment = document.get? segment := by
  cases document with
  | object members => rfl
  | _ => cases hobject

/-- Segments lead to the same in both documents unless they lead to the variable or stop short of it. -/
theorem DifferOnlyIn.follow?_eq (h : DifferOnlyIn name document other) {segments : List Bytes}
    (hshort : ¬segments <+: [Bytes.ofString "variables", name])
    (hinside : ¬[Bytes.ofString "variables", name] <+: segments) :
    document.follow? segments = other.follow? segments := by
  match segments with
  | [] => exact absurd List.nil_prefix hshort
  | field :: rest =>
      rw [Json.follow?, Json.follow?, step?_eq_get? h.left.isObject, step?_eq_get? h.right.isObject]
      by_cases hfield : field = "variables"
      · subst hfield
        rw [h.left.get?_eq, h.right.get?_eq]
        match rest with
        | [] => exact absurd (List.prefix_append _ [name]) hshort
        | found :: rest =>
            have hne : found ≠ name := by
              rintro rfl
              exact hinside (List.prefix_append [_, found] rest)
            have hvalue := h.values found hne
            rw [variableValue?, variableValue?] at hvalue
            simp only [Option.bind_some, Json.follow?, Json.step?, hvalue]
      · rw [h.fields field hfield]

end Patch

namespace Resolution

open Patch CampaignRules.Graph CampaignRules.Expr

variable {setting : Setting} {entity other : Entity} {guard : Condition} {extra : Json}
  {type v path : Bytes}

/-- The path leads through the document, under the name of the type, to the variable or to what holds
it. If the extra members have the name, it does not lead there. -/
def ThroughDocument (extra : Json) (type v path : Bytes) : Prop :=
  extra.hasKey (lowercase type) = false ∧
    (Bytes.splitOn '.'.toUInt8 path <+: [lowercase type, Bytes.ofString "variables", v] ∨
      [lowercase type, Bytes.ofString "variables", v] <+: Bytes.splitOn '.'.toUInt8 path)

instance : Decidable (ThroughDocument extra type v path) :=
  inferInstanceAs (Decidable (_ = false ∧ (_ <+: _ ∨ _ <+: _)))

theorem mem_keys_of_hasKey (hkey : extra.hasKey path = true) :
    path ∈ Members.keys (extra.members?.getD []) := by
  obtain ⟨value, hvalue⟩ := Option.isSome_iff_exists.1 hkey
  cases extra with
  | object members => exact List.mem_map.2 ⟨(path, value), Members.mem_of_get? hvalue, rfl⟩
  | _ => cases hvalue

/-- A path that starts at another variable leads to the same in both contexts, unless it goes through
the document. -/
theorem resolvePath?_guardContext (htype : entity.ref.type = other.ref.type)
    (hdiffer : DifferOnlyIn v entity.document other.document) (hbase : baseVariable path ≠ v)
    (houtside : ¬ThroughDocument extra entity.ref.type v path) :
    (guardContext extra entity).resolvePath? path = (guardContext extra other).resolvePath? path := by
  rw [guardContext, guardContext, ← htype, resolvePath?_object, resolvePath?_object]
  by_cases hextra : baseVariable path ∈ Members.keys (extra.members?.getD [])
  · rw [Members.get?_foldl_set_of_mem hextra]
  · rw [Members.get?_foldl_set_of_not_mem hextra, Members.get?_foldl_set_of_not_mem hextra]
    by_cases hname : baseVariable path = lowercase entity.ref.type
    · have hfree : extra.hasKey (lowercase entity.ref.type) = false :=
        Bool.eq_false_iff.2 fun hkey => hextra (hname ▸ mem_keys_of_hasKey hkey)
      obtain ⟨hshort, hinside⟩ := not_or.1 fun hthrough => houtside ⟨hfree, hthrough⟩
      rw [Bytes.splitOn_eq, show (Bytes.cutAt _ path).1 = _ from hname, List.prefix_cons_inj]
        at hshort hinside
      rw [Members.get?_set, Members.get?_set, if_pos hname, if_pos hname]
      exact hdiffer.follow?_eq hshort hinside
    · rw [Members.get?_set_ne hname, Members.get?_set_ne hname]
      exact congrArg (Option.bind · _) (hdiffer.values _ hbase)

/-- So a guard comes to the same for two entities that differ in a variable at the start of none of its
paths. -/
theorem guardResult_congr {expr : Expr} (hparse : Expr.ofJson guard.expression = .ok expr)
    (hoperators : ∀ name ∈ expr.operators, IsReading name)
    (htype : entity.ref.type = other.ref.type)
    (hdiffer : DifferOnlyIn v entity.document other.document)
    (hbase : ∀ path ∈ expr.paths, path ≠ [] → baseVariable path ≠ v)
    (houtside : ∀ path ∈ expr.paths, ¬ThroughDocument setting.extra entity.ref.type v path) :
    guardResult setting entity guard = guardResult setting other guard := by
  have hvar := ne_var_of_ofJsonAt hparse
  rw [guardResult, guardResult, hparse]
  exact meaning_congr_of_resolve setting.registry expr
    (fun name hname => ⟨hoperators name hname, hvar name hname⟩) fun path hpath hne =>
      resolvePath?_guardContext htype hdiffer (hbase path hpath hne) (houtside path hpath)

/-- The graph of records has an edge from an effect to each variable that its guard reads. -/
theorem reads_of_guard {linkChains : Bool} {conditions : List Condition} {effects : List Effect}
    (entities : List Entity) (hconditions : (conditions.map (·.id)).Nodup)
    (heffects : (effects.map (·.id)).Nodup) {effect : Effect} (heffect : effect ∈ effects)
    (hnode : effectId effect.id ∈
      (GraphBuild.ofRecords linkChains conditions effects entities).graph.ids)
    (hguard : guard ∈ conditions) (hid : effect.guardId = some guard.id) (hnamed : guard.id ≠ [])
    (hactive : guard.isActive) {expr : Expr} (hparse : Expr.ofJson guard.expression = .ok expr)
    {name : Bytes} (hname : name ∈ expr.reads) :
    (effectId effect.id, variableId name, .reads) ∈
      (GraphBuild.ofRecords linkChains conditions effects entities).graph.triples := by
  have hshows : Shows linkChains (.ofRecords conditions effects)
      (GraphBuild.ofRecords linkChains conditions effects entities).graph :=
    (current_ofRecords conditions effects entities).shows
  obtain ⟨e, he, heq⟩ := hshows.effectId_mem.1 hnode
  have hmem := ((Content.mem_effects_ofRecords heffects).1 he).1
  rw [List.inj_on_of_nodup_map heffects hmem heffect heq] at he
  refine (hshows.mem_reads he).2 ⟨name, rfl, .inl ?_⟩
  show name ∈ Content.guardVariables conditions effect
  rw [Content.guardVariables_of_mem hconditions hguard hnamed hid, activeReads, if_pos hactive,
    expressionReads, hparse]
  exact hname

/-- What the guard of an effect comes to depends on no variable that the effect does not read in the
graph of the records. Not all that guards can do to look at a variable is in the graph: two operators
take names as values, paths may go through the document, and a path that starts with an empty segment
counts for nothing. -/
theorem guard_reads_complete (linkChains : Bool) {conditions : List Condition} {effects : List Effect}
    (entities : List Entity) (hconditions : (conditions.map (·.id)).Nodup)
    (heffects : (effects.map (·.id)).Nodup) {effect : Effect} (heffect : effect ∈ effects)
    (hnode : effectId effect.id ∈
      (GraphBuild.ofRecords linkChains conditions effects entities).graph.ids)
    (hguard : guard ∈ conditions) (hid : effect.guardId = some guard.id) (hnamed : guard.id ≠ [])
    (hactive : guard.isActive) {expr : Expr} (hparse : Expr.ofJson guard.expression = .ok expr)
    (hoperators : ∀ name ∈ expr.operators, IsReading name)
    (hunread : (effectId effect.id, variableId v, .reads) ∉
      (GraphBuild.ofRecords linkChains conditions effects entities).graph.triples)
    (hproper : v ≠ [] ∨ ∀ path ∈ expr.paths, path ≠ [] → baseVariable path ≠ [])
    (houtside : ∀ path ∈ expr.paths, ¬ThroughDocument setting.extra entity.ref.type v path)
    (hsame : entity.ref = other.ref) (hdiffer : DifferOnlyIn v entity.document other.document) :
    guardResult setting entity guard = guardResult setting other guard := by
  refine guardResult_congr hparse hoperators (congrArg _ hsame) hdiffer ?_ houtside
  rintro path hpath hne rfl
  by_cases hbase : baseVariable path = []
  · exact hproper.elim (fun hv => hv hbase) fun hall => hall path hpath hne hbase
  · refine hunread (reads_of_guard entities hconditions heffects heffect hnode hguard hid hnamed hactive
      hparse (Bytes.mem_sortedSet.2 (List.mem_flatMap.2 ⟨path, hpath, ?_⟩)))
    simp [readOf, hbase]

/-- A guard that compares the weather with the weather in the document does not look at the gold. -/
theorem guard_reads_complete_fog :
    let entity : Entity := ⟨⟨"ENCOUNTER", "e1"⟩, [], "main",
      .object [("variables", .object [("gold", .unsigned 1), ("weather", "fog")])]⟩
    let other : Entity :=
      { entity with document := putVariable "gold" (some (.unsigned 5)) entity.document }
    let foggy : Condition := ⟨"foggy", "ENCOUNTER", some "e1", "isFoggy",
      .object [("===", .array [.object [("var", "weather")],
        .object [("var", "encounter.variables.weather")]])], [], 0, true, 1, [], []⟩
    let tax : Effect := ⟨"tax", "tax", ⟨"ENCOUNTER", "e1"⟩, .pre, 0,
      .array [.object [("op", "add"), ("path", "/variables/gold"), ("value", .unsigned 1)]],
      true, some "foggy", [], [], []⟩
    let setting : Setting := ⟨.empty, [tax], [foggy], [], false, .null⟩
    (guardResult setting entity foggy).toOption.map Json.truthy = some true ∧
      guardResult setting entity foggy = guardResult setting other foggy := by
  intro entity other foggy tax setting
  have hparse : Expr.ofJson foggy.expression = .ok (.operation "==="
      [.var "weather" none, .var "encounter.variables.weather" none]) := rfl
  have htax : tax ∈ [tax] := .head []
  have hfoggy : foggy ∈ [foggy] := .head []
  have hdiffer : DifferOnlyIn "gold" entity.document other.document :=
    differOnlyIn_putVariable ⟨_, rfl⟩ _ _
  exact ⟨by decide +kernel, guard_reads_complete true [] (by decide) (by decide) htax
    (by decide +kernel) hfoggy rfl (by decide) rfl hparse (by decide) (by decide +kernel)
    (.inl (by decide)) (by decide +kernel) rfl hdiffer⟩

/-- A variable without an edge makes a guard hold or not: the one that a path reaches through the
document, the one that is looked for by its name, the one with the empty name, and any variable if the
id of the guard is empty. -/
theorem guard_reads_incomplete :
    let gold : Json := .object [("var", "gold")]
    let guards : List (Bytes × Json × Bytes) :=
      [("rich", .object [("!!", .object [("var", "encounter.variables.gold")])], "gold"),
        ("poor", .object [("missing", .array ["gold"])], "gold"),
        ("odd", .object [("!!", .object [("var", ".a")])], ""),
        ("", .object [("!!", gold)], "gold")]
    ∀ sample ∈ guards,
      let guard : Condition := ⟨sample.1, "ENCOUNTER", none, "field", sample.2.1, [], 0, true, 1, [], []⟩
      let tax : Effect := ⟨"tax", "tax", ⟨"ENCOUNTER", "e1"⟩, .pre, 0, .array [], true,
        some sample.1, [], [], []⟩
      let built := (GraphBuild.ofRecords true [guard] [tax] []).graph
      let entity : Entity := ⟨⟨"ENCOUNTER", "e1"⟩, [], "main", .object [("variables", .object [])]⟩
      let other : Entity := { entity with
        document := putVariable sample.2.2 (some (.object [("a", .unsigned 1)])) entity.document }
      let setting : Setting := ⟨.empty, [tax], [guard], [], false, .null⟩
      effectId tax.id ∈ built.ids ∧ (effectId tax.id, variableId sample.2.2, .reads) ∉ built.triples ∧
        ((Expr.ofJson guard.expression).toOption.any (·.operators.all Operator.isStandardName)) ∧
        DifferOnlyIn sample.2.2 entity.document other.document ∧
        ∃ holds, (guardResult setting entity guard).toOption.map Json.truthy = some holds ∧
          (guardResult setting other guard).toOption.map Json.truthy = some !holds := by
  intro gold guards
  refine List.forall_mem_cons.2 ⟨?_, List.forall_mem_cons.2 ⟨?_, List.forall_mem_cons.2 ⟨?_,
    List.forall_mem_singleton.2 ?_⟩⟩⟩
  all_goals
    exact ⟨by decide +kernel, by decide +kernel, by decide +kernel,
      differOnlyIn_putVariable ⟨_, rfl⟩ _ _, by decide +kernel⟩

end Resolution

end CampaignRules
