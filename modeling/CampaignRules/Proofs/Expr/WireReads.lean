import CampaignRules.Expr.Reads
import CampaignRules.Proofs.Bytes
import CampaignRules.Proofs.Expr.Reading

/-! # What a wire form reads

The reads of a wire form are taken from the containers of the value itself, each of which is a
level, whereas the list of the arguments is none to an expression. So both name the same variables
wherever a wire form is looked at, but it is looked at no deeper than expressions may nest. -/

namespace CampaignRules.Expr

/-- A reference in the value names the variable; it is the container at the given depth, counted
from one. -/
inductive NamedAt (name : Bytes) : Nat → Json → Prop
  | reference {arg : Json} {members : Json.Members} (hmem : (Bytes.ofString "var", arg) ∈ members)
      (hname : name ∈ readOfArgument arg) : NamedAt name 1 (.object members)
  | member {depth : Nat} {key : Bytes} {value : Json} {members : Json.Members}
      (hmem : (key, value) ∈ members) (hvalue : NamedAt name depth value) :
      NamedAt name (depth + 1) (.object members)
  | item {depth : Nat} {value : Json} {items : List Json} (hmem : value ∈ items)
      (hvalue : NamedAt name depth value) : NamedAt name (depth + 1) (.array items)

variable {name : Bytes}

theorem NamedAt.pos {depth : Nat} {value : Json} (h : NamedAt name depth value) : 0 < depth := by
  cases h <;> omega

mutual

theorem mem_wireReadsAt {level : Nat} {value : Json} : name ∈ wireReadsAt level value ↔
    ∃ depth, NamedAt name depth value ∧ level + depth ≤ maxNesting + 1 := by
  by_cases hlevel : level > maxNesting
  · unfold wireReadsAt
    rw [if_pos hlevel]
    refine iff_of_false List.not_mem_nil ?_
    rintro ⟨depth, hnamed, hle⟩
    have := hnamed.pos
    omega
  · unfold wireReadsAt
    rw [if_neg hlevel]
    cases value with
    | array items =>
        refine mem_itemsWireReads.trans ?_
        constructor
        · rintro ⟨value, hmem, depth, hnamed, hle⟩
          exact ⟨depth + 1, .item hmem hnamed, by omega⟩
        · rintro ⟨_, hnamed, hle⟩
          cases hnamed with
          | @item depth value _ hmem hnamed => exact ⟨value, hmem, depth, hnamed, by omega⟩
    | object members =>
        refine mem_membersWireReads.trans ?_
        constructor
        · rintro ⟨key, value, hmem, ⟨rfl, hname⟩ | ⟨depth, hnamed, hle⟩⟩
          · exact ⟨1, .reference hmem hname, by omega⟩
          · exact ⟨depth + 1, .member hmem hnamed, by omega⟩
        · rintro ⟨_, hnamed, hle⟩
          cases hnamed with
          | reference hmem hname => exact ⟨_, _, hmem, .inl ⟨rfl, hname⟩⟩
          | @member depth key value _ hmem hnamed =>
              exact ⟨key, value, hmem, .inr ⟨depth, hnamed, by omega⟩⟩
    | _ =>
        refine iff_of_false List.not_mem_nil ?_
        rintro ⟨depth, hnamed, -⟩
        cases hnamed

theorem mem_itemsWireReads {level : Nat} {items : List Json} : name ∈ itemsWireReads level items ↔
    ∃ value ∈ items, ∃ depth, NamedAt name depth value ∧ level + depth ≤ maxNesting + 1 := by
  cases items with
  | nil => simp [itemsWireReads]
  | cons item rest =>
      rw [itemsWireReads, List.mem_append, mem_wireReadsAt, mem_itemsWireReads, List.exists_mem_cons_iff]

theorem mem_membersWireReads {level : Nat} {members : Json.Members} : name ∈ membersWireReads level members ↔
    ∃ key value, (key, value) ∈ members ∧ ((key = Bytes.ofString "var" ∧ name ∈ readOfArgument value) ∨
      ∃ depth, NamedAt name depth value ∧ level + depth ≤ maxNesting + 1) := by
  cases members with
  | nil => simp [membersWireReads]
  | cons member rest =>
      obtain ⟨key, value⟩ := member
      have hhead : name ∈ (if key = "var" then readOfArgument value else []) ↔
          key = Bytes.ofString "var" ∧ name ∈ readOfArgument value := by
        split <;> simp [*]
      rw [membersWireReads, List.mem_append, List.mem_append, mem_wireReadsAt, mem_membersWireReads,
        hhead]
      constructor
      · rintro (hfound | ⟨other, value', hmem, hfound⟩)
        · exact ⟨key, value, List.mem_cons_self, hfound⟩
        · exact ⟨other, value', List.mem_cons_of_mem _ hmem, hfound⟩
      · rintro ⟨other, value', hmem, hfound⟩
        rcases List.mem_cons.1 hmem with heq | hmem
        · cases heq
          exact .inl hfound
        · exact .inr ⟨other, value', hmem, hfound⟩

end

theorem not_namedAt_scalar {value : Json} (hscalar : value.isContainer = false) :
    ¬∃ depth, NamedAt name depth value := by
  rintro ⟨depth, hnamed⟩
  cases hnamed <;> cases hscalar

theorem exists_namedAt_array {items : List Json} :
    (∃ depth, NamedAt name depth (.array items)) ↔ ∃ item ∈ items, ∃ depth, NamedAt name depth item := by
  constructor
  · rintro ⟨_, hnamed⟩
    cases hnamed with
    | item hmem hnamed => exact ⟨_, hmem, _, hnamed⟩
  · rintro ⟨item, hmem, depth, hnamed⟩
    exact ⟨depth + 1, .item hmem hnamed⟩

theorem exists_namedAt_object {key : Bytes} {arg : Json} :
    (∃ depth, NamedAt name depth (.object [(key, arg)])) ↔
      (key = Bytes.ofString "var" ∧ name ∈ readOfArgument arg) ∨ ∃ depth, NamedAt name depth arg := by
  constructor
  · rintro ⟨_, hnamed⟩
    cases hnamed with
    | reference hmem hname =>
        cases List.mem_singleton.1 hmem
        exact .inl ⟨rfl, hname⟩
    | member hmem hnamed =>
        cases List.mem_singleton.1 hmem
        exact .inr ⟨_, hnamed⟩
  · rintro (⟨rfl, hname⟩ | ⟨depth, hnamed⟩)
    · exact ⟨1, .reference List.mem_cons_self hname⟩
    · exact ⟨depth + 1, .member List.mem_cons_self hnamed⟩

theorem isScalar_of_varPath {arg : Json} {path : Bytes} (hpath : varPath arg = .ok path) :
    arg.isContainer = false := by
  cases arg with
  | array _ | object _ => cases hpath
  | _ => rfl

theorem readOf_of_dot_not_mem {path : Bytes} (hne : path ≠ []) (hdot : '.'.toUInt8 ∉ path) :
    readOf path = [path] := by
  simp [readOf, baseVariable, Bytes.cutAt_of_not_mem hdot, hne]

/-- A path reads what the argument that gives it names. -/
theorem readOfArgument_eq {arg : Json} {path : Bytes} (hpath : varPath arg = .ok path) :
    readOfArgument arg = readOf path := by
  cases arg with
  | null =>
      cases hpath
      rfl
  | string text =>
      cases hpath
      rfl
  | unsigned n =>
      cases hpath
      exact (readOf_of_dot_not_mem (Bytes.decimal_ne_nil _) (Bytes.dot_not_mem_decimal _)).symm
  | signed n =>
      cases hpath
      exact (readOf_of_dot_not_mem (Bytes.signedDecimal_ne_nil _)
        (Bytes.dot_not_mem_signedDecimal _)).symm
  | _ => cases hpath

theorem readOfArgument_list {arg : Json} {path : Bytes} (rest : List Json)
    (hpath : varPath arg = .ok path) : readOfArgument (.array (arg :: rest)) = readOf path := by
  rw [← readOfArgument_eq hpath]
  cases arg with
  | array items => cases hpath
  | _ => rfl

mutual

/-- The variables of all paths are those that the spelling names anywhere. -/
theorem mem_readOf_paths {value : Json} {expr : Expr} (h : Spells value expr) :
    name ∈ expr.paths.flatMap readOf ↔ ∃ depth, NamedAt name depth value := by
  cases h with
  | scalar hscalar => exact iff_of_false List.not_mem_nil (not_namedAt_scalar hscalar)
  | array hitems => exact (mem_readOf_itemsPaths hitems).trans exists_namedAt_array.symm
  | noPath =>
      rw [exists_namedAt_object, exists_namedAt_array]
      simp [paths, readOf, baseVariable, Bytes.cutAt, readOfArgument]
  | path hpath =>
      rw [exists_namedAt_object, or_iff_left (not_namedAt_scalar (isScalar_of_varPath hpath)),
        readOfArgument_eq hpath]
      simp [paths]
  | listedPath hpath =>
      rw [exists_namedAt_object, exists_namedAt_array, readOfArgument_list [] hpath]
      simp [paths, not_namedAt_scalar (isScalar_of_varPath hpath)]
  | default hpath hdefault =>
      have ih := mem_readOf_paths hdefault
      rw [exists_namedAt_object, exists_namedAt_array, readOfArgument_list _ hpath]
      simp [paths, not_namedAt_scalar (isScalar_of_varPath hpath), ih]
  | operation hvar hargs =>
      have ih := mem_readOf_itemsPaths hargs
      rw [exists_namedAt_object, exists_namedAt_array]
      simp [paths, hvar, ih]
  | onlyArg hvar harray harg =>
      have ih := mem_readOf_paths harg
      rw [exists_namedAt_object]
      simp [paths, itemsPaths, hvar, ih]

theorem mem_readOf_itemsPaths {items : List Json} {exprs : List Expr} (h : ItemsSpell items exprs) :
    name ∈ (itemsPaths exprs).flatMap readOf ↔ ∃ item ∈ items, ∃ depth, NamedAt name depth item := by
  cases h with
  | nil => simp [itemsPaths]
  | cons hitem hitems =>
      rw [itemsPaths, List.flatMap_append, List.mem_append, mem_readOf_paths hitem,
        mem_readOf_itemsPaths hitems, List.exists_mem_cons_iff]

end

theorem mem_reads_iff {value : Json} {expr : Expr} (hread : ofJson value = .ok expr) :
    name ∈ expr.reads ↔ ∃ depth, NamedAt name depth value := by
  rw [reads, Bytes.mem_sortedSet]
  exact mem_readOf_paths (spells_of_ofJsonAt hread)

theorem mem_wireReads_iff {value : Json} (hobject : value.isObject) :
    name ∈ wireReads value ↔ ∃ depth ≤ maxNesting, NamedAt name depth value := by
  rw [wireReads, if_pos hobject, Bytes.mem_sortedSet, mem_wireReadsAt]
  refine exists_congr fun depth => ?_
  rw [and_comm, Nat.add_comm, Nat.add_le_add_iff_right]

theorem nesting_lt_items {value : Json} {items : List Json} (hmem : value ∈ items) :
    value.nesting < Json.itemsNesting items := by
  induction items with
  | nil => cases hmem
  | cons item rest ih =>
      rw [Json.itemsNesting]
      rcases List.mem_cons.1 hmem with rfl | hmem
      · exact Nat.le_max_left _ _
      · exact lt_of_lt_of_le (ih hmem) (Nat.le_max_right _ _)

theorem nesting_lt_members {key : Bytes} {value : Json} {members : Json.Members}
    (hmem : (key, value) ∈ members) : value.nesting < Json.membersNesting members := by
  induction members with
  | nil => cases hmem
  | cons member rest ih =>
      rw [Json.membersNesting]
      rcases List.mem_cons.1 hmem with rfl | hmem
      · exact Nat.le_max_left _ _
      · exact lt_of_lt_of_le (ih hmem) (Nat.le_max_right _ _)

theorem NamedAt.depth_le {depth : Nat} {value : Json} (h : NamedAt name depth value) :
    depth ≤ value.nesting := by
  induction h with
  | reference hmem _ => exact Nat.one_le_of_lt (nesting_lt_members hmem)
  | member hmem _ ih => exact lt_of_le_of_lt ih (nesting_lt_members hmem)
  | item hmem _ ih => exact lt_of_le_of_lt ih (nesting_lt_items hmem)

/-! ### Both ways to take the reads -/

/-- The reads of the wire form are reads of the expression. They are all of them exactly if each
variable is named by a reference that no more containers surround than are looked at, hence
whenever the value nests no deeper than that. -/
theorem wireReads_exact {value : Json} {expr : Expr} (hobject : value.isObject)
    (hread : ofJson value = .ok expr) :
    (wireReads value = expr.reads ↔
      ∀ name ∈ expr.reads, ∃ depth ≤ maxNesting, NamedAt name depth value) ∧
    (value.nesting ≤ maxNesting → wireReads value = expr.reads) ∧
    ∀ name ∈ wireReads value, name ∈ expr.reads := by
  have hsubset : ∀ name ∈ wireReads value, name ∈ expr.reads := by
    intro name hname
    obtain ⟨depth, -, hnamed⟩ := (mem_wireReads_iff hobject).1 hname
    exact (mem_reads_iff hread).2 ⟨depth, hnamed⟩
  have hequal : wireReads value = expr.reads ↔
      ∀ name ∈ expr.reads, ∃ depth ≤ maxNesting, NamedAt name depth value := by
    constructor
    · rintro heq name hname
      exact (mem_wireReads_iff hobject).1 (heq ▸ hname)
    · intro hnamed
      have hwire : (wireReads value).Pairwise (· < ·) := by
        rw [wireReads, if_pos hobject]
        exact Bytes.sortedSet_pairwise _
      refine Bytes.eq_of_mem_iff hwire (Bytes.sortedSet_pairwise _) fun name => ?_
      exact ⟨hsubset name, fun hname => (mem_wireReads_iff hobject).2 (hnamed name hname)⟩
  refine ⟨hequal, fun hnesting => hequal.2 fun name hname => ?_, hsubset⟩
  obtain ⟨depth, hnamed⟩ := (mem_reads_iff hread).1 hname
  exact ⟨depth, hnamed.depth_le.trans hnesting, hnamed⟩

/-- Names by a text, a number and a default. -/
theorem wireReads_exact_spellings :
    let value : Json := .object [("and", .array [.object [("var", "town.size")],
      .object [("!", .object [("var", .array [.unsigned 7, .object [("var", "day")]])])]])]
    ∃ expr, ofJson value = .ok expr ∧ wireReads value = expr.reads ∧
      expr.reads = [Bytes.ofString "7", Bytes.ofString "day", Bytes.ofString "town"] := by
  intro value
  let expr : Expr := .operation "and" [.var "town.size" none,
    .operation "!" [.var "7" (some (.var "day" none))]]
  have hread : ofJson value = .ok expr := rfl
  exact ⟨expr, hread, (wireReads_exact rfl hread).2.1 (by decide), by decide⟩

/-- The expression is negated so many times, each time as the one item of a list. -/
def negated : Nat → Json → Json
  | 0, value => value
  | times + 1, value => .object [("!", .array [negated times value])]

/-- An expression of 129 levels, of which the wire form takes 257 containers to the reference. -/
theorem wireReads_incomplete :
    let value := negated 128 (.object [("var", "x")])
    ∃ expr, ofJson value = .ok expr ∧ expr.reads = [Bytes.ofString "x"] ∧ wireReads value = [] := by
  intro value
  obtain ⟨expr, hread, hreads⟩ := exists_ok_of_any (ofJson value)
    (fun expr => expr.reads = [Bytes.ofString "x"]) (by decide +kernel)
  exact ⟨expr, hread, by simpa using hreads, by decide +kernel⟩

end CampaignRules.Expr
