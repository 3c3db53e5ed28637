import CampaignRules.Expr.Reads
import CampaignRules.Expr.Trace

/-! # Evaluation depends on nothing but the reads

At the root a standard operator looks at the data in no other way than through its arguments; the
exceptions are the two that test for missing names. Inside an iteration the scope is an element,
hence a value that was computed already. So two objects that agree on the variables that an
expression reads give it the same meaning, whoever observes it: value, failure and visits are the
same. -/

namespace CampaignRules

variable {m : Type → Type} [Observer m] {s t : Scope}

namespace Operator

/-- The operator looks at the data in scope itself. -/
def testsNames (op : Operator) : Bool :=
  op = .missing || op = .missingSome

theorem evaluateAll_congr {args : List (Meaning m)} (hargs : ∀ arg ∈ args, arg s = arg t) :
    evaluateAll s args = evaluateAll t args := by
  induction args with
  | nil => rfl
  | cons arg rest ih =>
      rw [List.forall_mem_cons] at hargs
      rw [evaluateAll, evaluateAll, hargs.1, ih hargs.2]

theorem firstResult_congr : ∀ {args : List (Meaning m)}, (∀ arg ∈ args, arg s = arg t) →
    firstResult s args = firstResult t args
  | [], _ => rfl
  | [otherwise], hargs => hargs otherwise List.mem_cons_self
  | test :: result :: rest, hargs => by
      simp only [List.forall_mem_cons] at hargs
      obtain ⟨htest, hresult, hrest⟩ := hargs
      rw [firstResult, firstResult, htest, hresult, firstResult_congr hrest]

theorem firstDeciding_congr (decides : Bool) :
    ∀ {args : List (Meaning m)}, (∀ arg ∈ args, arg s = arg t) →
      firstDeciding decides s args = firstDeciding decides t args
  | [], _ => rfl
  | [arg], hargs => hargs arg List.mem_cons_self
  | arg :: next :: rest, hargs => by
      rw [List.forall_mem_cons] at hargs
      obtain ⟨harg, hrest⟩ := hargs
      have ih := firstDeciding_congr decides hrest
      simp only [firstDeciding, harg] at ih ⊢
      rw [ih]

theorem onValues_congr {op : Operator} (hop : op.testsNames = false) (a b : Json)
    (values : List Json) : op.onValues a values = op.onValues b values := by
  unfold onValues
  split
  all_goals first | rfl | cases hop

/-- What an operator does in a scope depends on what its arguments do in this scope. -/
theorem run_congr {op : Operator} (hop : op.testsNames = false) {args : List (Meaning m)}
    (hargs : ∀ arg ∈ args, arg s = arg t) : op.run args s = op.run args t := by
  have hall := evaluateAll_congr hargs
  simp only [run]
  split
  · rw [hall]
  · congr 1
    funext _
    split
    · exact firstResult_congr hargs
    · exact firstResult_congr hargs
    · exact firstDeciding_congr false hargs
    · exact firstDeciding_congr true hargs
    · rw [hargs _ List.mem_cons_self]
    · rw [hargs _ List.mem_cons_self]
    · rw [hargs _ List.mem_cons_self]
    · rw [hargs _ List.mem_cons_self]
    · rw [hargs _ List.mem_cons_self]
    · rename_i initial _
      rw [hargs _ List.mem_cons_self]
      cases initial with
      | nil => rfl
      | cons initial rest =>
          have hinitial : initial s = initial t :=
            hargs initial (List.mem_cons_of_mem _ (List.mem_cons_of_mem _ List.mem_cons_self))
          simp only [hinitial]
    · simp only [hall, onValues_congr hop s.data t.data]

end Operator

namespace Expr

/-- A path leads into an object through the variable at its start. -/
theorem resolvePath?_object (path : Bytes) (members : Json.Members) :
    (Json.object members).resolvePath? path =
      (Json.Members.get? (baseVariable path) members).bind
        (Json.follow? (((Bytes.cutAt '.'.toUInt8 path).2.map (Bytes.splitOn '.'.toUInt8)).getD [])) := by
  rw [Json.resolvePath?, Bytes.splitOn_eq]
  rfl

theorem resolvePath?_object_congr {a b : Json.Members} {path : Bytes}
    (hbase : a.get? (baseVariable path) = b.get? (baseVariable path)) :
    (Json.object a).resolvePath? path = (Json.object b).resolvePath? path := by
  rw [resolvePath?_object, resolvePath?_object, hbase]

theorem varMeaning_congr {a b : Json} {path : Bytes} {default : Option (Meaning m)}
    (hpath : path ≠ [] → a.resolvePath? path = b.resolvePath? path)
    (hdefault : ∀ arg ∈ default, arg ⟨a, false⟩ = arg ⟨b, false⟩) :
    varMeaning path default ⟨a, false⟩ = varMeaning path default ⟨b, false⟩ := by
  by_cases hempty : path = []
  · subst hempty
    rfl
  · have hne : path.isEmpty = false := by simpa using hempty
    simp only [varMeaning, hpath hempty, hne, Bool.false_eq_true, if_false]
    cases b.resolvePath? path with
    | some value => rfl
    | none =>
        cases default with
        | none => rfl
        | some arg => exact hdefault arg rfl

mutual

/-- The operators of all operations, in the order of the text. -/
def operators : Expr → List Bytes
  | .literal _ => []
  | .array items => itemsOperators items
  | .var _ none => []
  | .var _ (some default) => operators default
  | .operation operator args => operator :: itemsOperators args

def itemsOperators : List Expr → List Bytes
  | [] => []
  | item :: rest => operators item ++ itemsOperators rest

end

mutual

/-- No operation has the name under which references are written. -/
theorem ne_var_of_ofJsonAt {level : Nat} {value : Json} {expr : Expr}
    (hread : ofJsonAt level value = .ok expr) : ∀ name ∈ expr.operators, name ≠ "var" := by
  unfold ofJsonAt at hread
  split at hread
  · cases hread
  · split at hread
    · obtain ⟨items, hitems, heq⟩ := bind_eq_ok.1 hread
      cases heq
      exact ne_var_of_ofJsonItems hitems
    · split at hread
      · split at hread
        · cases hread
          simp [operators]
        · obtain ⟨path, -, heq⟩ := bind_eq_ok.1 hread
          cases heq
          simp [operators]
        · obtain ⟨default, hdefault, hpath⟩ := bind_eq_ok.1 hread
          obtain ⟨path, -, heq⟩ := bind_eq_ok.1 hpath
          cases heq
          simpa only [operators] using ne_var_of_ofJsonAt hdefault
        · cases hread
        · obtain ⟨path, -, heq⟩ := bind_eq_ok.1 hread
          cases heq
          simp [operators]
      · rename_i hkey
        split at hread
        · obtain ⟨args, hargs, heq⟩ := bind_eq_ok.1 hread
          cases heq
          exact List.forall_mem_cons.2 ⟨hkey, ne_var_of_ofJsonItems hargs⟩
        · obtain ⟨arg, harg, heq⟩ := bind_eq_ok.1 hread
          cases heq
          simp only [operators, itemsOperators, List.append_nil]
          exact List.forall_mem_cons.2 ⟨hkey, ne_var_of_ofJsonAt harg⟩
    · cases hread
    · cases hread
      simp [operators]

theorem ne_var_of_ofJsonItems {level : Nat} {items : List Json} {exprs : List Expr}
    (hread : ofJsonItems level items = .ok exprs) :
    ∀ name ∈ itemsOperators exprs, name ≠ "var" := by
  unfold ofJsonItems at hread
  split at hread
  · cases hread
    simp [itemsOperators]
  · obtain ⟨item, hitem, htail⟩ := bind_eq_ok.1 hread
    obtain ⟨rest, hrest, heq⟩ := bind_eq_ok.1 htail
    cases heq
    exact List.forall_mem_append.2 ⟨ne_var_of_ofJsonAt hitem, ne_var_of_ofJsonItems hrest⟩

end

/-- The operator is a standard one that takes all it works on from its arguments. -/
def IsReading (name : Bytes) : Prop :=
  Operator.isStandardName name ∧ name ≠ "missing" ∧ name ≠ "missing_some"

instance : DecidablePred IsReading := fun name =>
  inferInstanceAs (Decidable (_ ∧ name ≠ _ ∧ name ≠ _))

theorem operationMeaning_congr (registry : Registry) {name : Bytes} (hname : IsReading name)
    (hvar : name ≠ "var") {args : List (Meaning m)} (hargs : ∀ arg ∈ args, arg s = arg t) :
    operationMeaning registry name args s = operationMeaning registry name args t := by
  obtain ⟨hstandard, hmissing, hmissingSome⟩ := hname
  obtain ⟨op, hop⟩ : ∃ op, Operator.ofName? name = some op := by
    simpa [Operator.isStandardName, hvar, Option.isSome_iff_exists] using hstandard
  have hnamed : op.name = name := by
    simpa using List.find?_some hop
  have htests : op.testsNames = false := by
    subst hnamed
    cases op with
    | missing => exact absurd rfl hmissing
    | missingSome => exact absurd rfl hmissingSome
    | _ => rfl
  simp only [operationMeaning, hop, Operator.run_congr htests hargs]

mutual

/-- Contexts in which all references lead to the same are the same to an expression. -/
theorem meaning_congr_of_resolve (registry : Registry) {a b : Json} (expr : Expr)
    (hoperators : ∀ name ∈ expr.operators, IsReading name ∧ name ≠ "var")
    (hpaths : ∀ path ∈ expr.paths, path ≠ [] → a.resolvePath? path = b.resolvePath? path) :
    (expr.meaning registry ⟨a, false⟩ : m Json) = expr.meaning registry ⟨b, false⟩ := by
  cases expr with
  | literal value => rfl
  | array items =>
      have hitems := meanings_congr_of_resolve registry items hoperators hpaths
      simp only [meaning, Operator.evaluateAll_congr hitems]
  | var path default =>
      cases default with
      | none =>
          simp only [meaning]
          exact congrArg (Observer.node _)
            (varMeaning_congr (hpaths path List.mem_cons_self) fun _ h => by cases h)
      | some default =>
          have hdefault := meaning_congr_of_resolve registry default hoperators
            fun path hpath => hpaths path (List.mem_cons_of_mem _ hpath)
          simp only [meaning]
          exact congrArg (Observer.node _)
            (varMeaning_congr (hpaths path List.mem_cons_self) fun _ h => by cases h; exact hdefault)
  | operation name args =>
      obtain ⟨hname, hrest⟩ := List.forall_mem_cons.1 hoperators
      have hargs := meanings_congr_of_resolve registry args hrest hpaths
      simp only [meaning, operationMeaning_congr registry hname.1 hname.2 hargs]

theorem meanings_congr_of_resolve (registry : Registry) {a b : Json} (items : List Expr)
    (hoperators : ∀ name ∈ itemsOperators items, IsReading name ∧ name ≠ "var")
    (hpaths : ∀ path ∈ itemsPaths items, path ≠ [] → a.resolvePath? path = b.resolvePath? path) :
    ∀ arg ∈ (meanings registry items : List (Meaning m)), arg ⟨a, false⟩ = arg ⟨b, false⟩ := by
  cases items with
  | nil => simp [meanings]
  | cons item rest =>
      rw [itemsOperators, List.forall_mem_append] at hoperators
      rw [itemsPaths, List.forall_mem_append] at hpaths
      rw [meanings, List.forall_mem_cons]
      exact ⟨meaning_congr_of_resolve registry item hoperators.1 hpaths.1,
        meanings_congr_of_resolve registry rest hoperators.2 hpaths.2⟩

end

/-- Objects that agree on the variables at the start of all paths are such contexts. -/
theorem meaning_congr (registry : Registry) {a b : Json.Members} (expr : Expr)
    (hoperators : ∀ name ∈ expr.operators, IsReading name ∧ name ≠ "var")
    (hpaths : ∀ path ∈ expr.paths, path ≠ [] → a.get? (baseVariable path) = b.get? (baseVariable path)) :
    (expr.meaning registry ⟨.object a, false⟩ : m Json) = expr.meaning registry ⟨.object b, false⟩ :=
  meaning_congr_of_resolve registry expr hoperators fun path hpath hne =>
    resolvePath?_object_congr (hpaths path hpath hne)

/-! ### Values and traces -/

/-- The value, or the failure, and the trace depend on nothing in the context but the variables
that the expression reads. -/
theorem evaluation_eq_of_reads_agree (registry : Registry) {wire : Json} {expr : Expr}
    {a b : Json.Members} (hparse : ofJson wire = .ok expr)
    (hoperators : ∀ name ∈ expr.operators, IsReading name)
    (hpaths : ∀ path ∈ expr.paths, path ≠ [] → baseVariable path ≠ [])
    (hagree : ∀ name ∈ expr.reads, a.get? name = b.get? name) :
    expr.eval registry (.object a) = expr.eval registry (.object b) ∧
      (expr.evalTraced registry (.object a)).outcome =
        (expr.evalTraced registry (.object b)).outcome ∧
      expr.trace registry (.object a) = expr.trace registry (.object b) := by
  have hvar := ne_var_of_ofJsonAt hparse
  have hbase : ∀ path ∈ expr.paths, path ≠ [] →
      a.get? (baseVariable path) = b.get? (baseVariable path) := by
    intro path hpath hne
    refine hagree _ (Bytes.mem_sortedSet.2 (List.mem_flatMap.2 ⟨path, hpath, ?_⟩))
    simp [readOf, hpaths path hpath hne]
  have htraced : expr.evalTraced registry (.object a) = expr.evalTraced registry (.object b) :=
    meaning_congr registry expr (fun name hname => ⟨hoperators name hname, hvar name hname⟩) hbase
  refine ⟨?_, by rw [htraced], by rw [trace, trace, htraced]⟩
  exact meaning_congr registry expr (fun name hname => ⟨hoperators name hname, hvar name hname⟩) hbase

/-- The weather is no concern of a list of towns. -/
theorem evaluation_eq_of_reads_agree_towns :
    let expr : Expr := .operation "map"
      [.var "realm.towns" (some (.literal .null)), .operation "cat" [.var [] none, .literal "!"]]
    let a : Json.Members := [("realm", .object [("towns", .array ["Ayr", "Wick"])]), ("weather", "fog")]
    let b : Json.Members := [("realm", .object [("towns", .array ["Ayr", "Wick"])])]
    expr.eval .empty (.object a) = .ok (.array ["Ayr!", "Wick!"]) ∧
      expr.trace .empty (.object a) = expr.trace .empty (.object b) := by
  intro expr a b
  have hparse : ofJson expr.toJson = .ok expr := rfl
  have hreads : expr.reads = [Bytes.ofString "realm"] := by decide
  have hagree : ∀ name ∈ expr.reads, a.get? name = b.get? name := by
    intro name hname
    rw [hreads, List.mem_singleton] at hname
    subst hname
    rfl
  have h := evaluation_eq_of_reads_agree .empty hparse (by decide) (by decide) hagree
  exact ⟨rfl, h.2.2⟩

end Expr

end CampaignRules
