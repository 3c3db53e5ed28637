import CampaignRules.Proofs.Graph.Update

/-! Updates one after another against building anew. The content of records with distinct ids does
not depend on their order: a condition is in it if it is active and can be used, and an effect has the
guard that its id names. Hence the content of the records after an update is the updated content, and
an updated graph is up to date for the same content as the one built from the final records. Two
such graphs differ at most in variables and entities without edges. -/

namespace CampaignRules.Graph

variable {linked : Bool} {r r' : Content} {g g' : Graph} {id : Bytes}
  {conditions : List Condition} {effects : List Effect} {c d : Condition}

/-- The conditions with another one in the place of that with its id, or added to them. -/
def replaceCondition (conditions : List Condition) (c : Condition) : List Condition :=
  if conditions.any (·.id = c.id) then conditions.map fun d => if d.id = c.id then c else d
  else conditions ++ [c]

theorem mem_replaceCondition :
    d ∈ replaceCondition conditions c ↔ d = c ∨ d ∈ conditions ∧ d.id ≠ c.id := by
  rw [replaceCondition]
  by_cases htaken : ∃ d ∈ conditions, d.id = c.id
  · rw [if_pos (by simpa using htaken), List.mem_map]
    constructor
    · rintro ⟨old, hold, rfl⟩
      by_cases hid : old.id = c.id
      · exact .inl (if_pos hid)
      · rw [if_neg hid]
        exact .inr ⟨hold, hid⟩
    · rintro (rfl | ⟨hd, hid⟩)
      · obtain ⟨old, hold, hid⟩ := htaken
        exact ⟨old, hold, if_pos hid⟩
      · exact ⟨d, hd, if_neg hid⟩
  · have hfree : ∀ d ∈ conditions, d.id ≠ c.id := fun d hd hid => htaken ⟨d, hd, hid⟩
    rw [if_neg (by simpa using htaken), List.mem_append, List.mem_singleton, or_comm]
    exact or_congr_right ⟨fun hd => ⟨hd, hfree d hd⟩, And.left⟩

theorem nodup_replaceCondition (hids : (conditions.map (·.id)).Nodup) (c : Condition) :
    ((replaceCondition conditions c).map (·.id)).Nodup := by
  rw [replaceCondition]
  split
  · have hsame : (fun d : Condition => (if d.id = c.id then c else d).id) = (·.id) := by
      funext d
      by_cases hid : d.id = c.id
      · rw [if_pos hid, hid]
      · rw [if_neg hid]
    rw [List.map_map]
    exact (congrArg (fun f => (conditions.map f).Nodup) hsame).mpr hids
  · rename_i hfree
    rw [List.map_append, List.map_singleton]
    refine hids.append (List.nodup_singleton _) ?_
    rw [List.disjoint_singleton]
    intro hmem
    obtain ⟨d, hd, hid⟩ := List.mem_map.1 hmem
    exact hfree (List.any_eq_true.2 ⟨d, hd, decide_eq_true hid⟩)

theorem mem_activeReads {c : Condition} {name : Bytes} : name ∈ activeReads c ↔
    c.isActive = true ∧ ∃ expr, Expr.ofJson c.expression = .ok expr ∧ name ∈ expr.reads := by
  rw [activeReads, expressionReads]
  cases c.isActive with
  | false => simp
  | true => cases Expr.ofJson c.expression <;> simp [Except.map, Except.toOption]

/-- What alone passes a test is what a search finds. -/
theorem find?_eq_some_of_only {α : Type} {p : α → Bool} {xs : List α} {x : α} (hx : x ∈ xs)
    (hp : p x = true) (honly : ∀ y ∈ xs, p y = true → y = x) : xs.find? p = some x := by
  cases hfind : xs.find? p with
  | none => exact absurd hp (List.find?_eq_none.1 hfind x hx)
  | some y => rw [honly y (List.mem_of_find?_eq_some hfind) (List.find?_some hfind)]

/-- Of records with distinct ids all that can be used are kept. -/
theorem mem_foldl_keepFirst {α : Type} {usable : α → Bool} {key : α → Bytes} {xs kept : List α}
    (hkeys : ((kept ++ xs).map key).Nodup) {x : α} :
    x ∈ xs.foldl (keepFirst usable key) kept ↔ x ∈ kept ∨ x ∈ xs ∧ usable x = true := by
  induction xs generalizing kept with
  | nil => simp
  | cons first rest ih =>
      have hfree : ∀ old ∈ kept, key old ≠ key first := by
        intro old hold hkey
        rw [List.map_append] at hkeys
        exact List.disjoint_of_nodup_append hkeys (List.mem_map_of_mem hold)
          (hkey ▸ List.mem_map_of_mem List.mem_cons_self)
      rw [List.foldl_cons, keepFirst_of_free hfree, List.mem_cons]
      cases husable : usable first with
      | true =>
          rw [if_pos rfl, ih (by simpa using hkeys), List.mem_append, List.mem_singleton]
          constructor
          · rintro ((hold | rfl) | ⟨hx, hux⟩)
            · exact .inl hold
            · exact .inr ⟨.inl rfl, husable⟩
            · exact .inr ⟨.inr hx, hux⟩
          · rintro (hold | ⟨rfl | hx, hux⟩)
            · exact .inl (.inl hold)
            · exact .inl (.inr rfl)
            · exact .inr ⟨hx, hux⟩
      | false =>
          have hrest : ((kept ++ rest).map key).Nodup :=
            hkeys.sublist (((List.sublist_cons_self first rest).append_left kept).map key)
          rw [if_neg Bool.false_ne_true, ih hrest]
          refine or_congr_right ⟨And.imp_left .inr, ?_⟩
          rintro ⟨rfl | hx, hux⟩
          · rw [husable] at hux
            cases hux
          · exact ⟨hx, hux⟩

theorem mem_foldl_keepFirst_of_mem {α : Type} {usable : α → Bool} {key : α → Bytes}
    {xs kept : List α} {x : α} (hx : x ∈ kept) : x ∈ xs.foldl (keepFirst usable key) kept := by
  induction xs generalizing kept with
  | nil => exact hx
  | cons first rest ih =>
      refine ih ?_
      rw [keepFirst]
      split
      · exact List.mem_append_left _ hx
      · exact hx

/-- Of the records with an id the first one that can be used is kept. -/
theorem mem_foldl_keepFirst_of_first {α : Type} {usable : α → Bool} {key : α → Bytes}
    {xs kept : List α} {x : α} (hfree : ∀ y ∈ kept, key y ≠ key x)
    (hfirst : xs.find? (fun y => usable y && key y = key x) = some x) :
    x ∈ xs.foldl (keepFirst usable key) kept := by
  induction xs generalizing kept with
  | nil => cases hfirst
  | cons first rest ih =>
      rw [List.foldl_cons]
      rw [List.find?_cons] at hfirst
      split at hfirst
      · rename_i htest
        obtain rfl := Option.some.inj hfirst
        rw [Bool.and_eq_true] at htest
        rw [keepFirst_of_free hfree, if_pos htest.1]
        exact mem_foldl_keepFirst_of_mem (List.mem_append_right _ List.mem_cons_self)
      · rename_i htest
        refine ih (fun y hy hkey => ?_) hfirst
        rw [keepFirst] at hy
        split at hy
        · rename_i hkept
          rcases List.mem_append.1 hy with hy | hy
          · exact hfree y hy hkey
          · rw [List.mem_singleton.1 hy] at hkey
            simp [hkey, (Bool.and_eq_true_iff.1 hkept).1] at htest
        · exact hfree y hy hkey

/-- A record that is kept is the first one with its id that can be used. -/
theorem first_of_mem_foldl_keepFirst {α : Type} {usable : α → Bool} {key : α → Bytes}
    {xs kept : List α} {x : α} (hx : x ∈ xs.foldl (keepFirst usable key) kept) :
    x ∈ kept ∨ (∀ y ∈ kept, key y ≠ key x) ∧
      xs.find? (fun y => usable y && key y = key x) = some x := by
  induction xs generalizing kept with
  | nil => exact .inl hx
  | cons first rest ih =>
      rw [List.foldl_cons] at hx
      rcases ih hx with hx | ⟨hfree, hfirst⟩
      · by_cases hkept : x ∈ kept
        · exact .inl hkept
        · rw [keepFirst] at hx
          split at hx
          · rename_i htest
            obtain rfl := List.mem_singleton.1 ((List.mem_append.1 hx).resolve_left hkept)
            rw [Bool.and_eq_true, Bool.not_eq_true', List.any_eq_false] at htest
            refine .inr ⟨by simpa using htest.2, List.find?_cons_of_pos ?_⟩
            rw [htest.1, Bool.true_and]
            exact decide_eq_true rfl
          · exact absurd hx hkept
      · refine .inr ⟨fun y hy => hfree y ?_, ?_⟩
        · rw [keepFirst]
          split
          · exact List.mem_append_left _ hy
          · exact hy
        · rw [List.find?_cons_of_neg, hfirst]
          intro htest
          rw [Bool.and_eq_true, decide_eq_true_eq] at htest
          -- the first record would be kept itself, or one with its id is
          rw [keepFirst, htest.1, Bool.true_and] at hfree
          split at hfree
          · exact hfree first (List.mem_append_right _ (List.mem_singleton.2 rfl)) htest.2
          · rename_i htaken
            rw [Bool.not_eq_true', Bool.not_eq_false, List.any_eq_true] at htaken
            obtain ⟨y, hy, hkey⟩ := htaken
            exact hfree y hy ((of_decide_eq_true hkey).trans htest.2)

/-- Of the active records with an id the first one that can be used is kept, and no other. -/
theorem find?_eq_some_iff_kept {α : Type} {active usable : α → Bool} {key : α → Bytes} {xs : List α}
    {x : α} :
    xs.find? (fun y => active y && (usable y && key y = id)) = some x ↔
      x ∈ (xs.filter active).foldl (keepFirst usable key) [] ∧ key x = id := by
  have hfind : (xs.filter active).find? (fun y => usable y && key y = id) =
      xs.find? (fun y => active y && (usable y && key y = id)) := by
    rw [List.find?_filter]
    simp only [Bool.decide_and, Bool.decide_eq_true]
  rw [← hfind]
  constructor
  · intro hfirst
    have htest := List.find?_some hfirst
    rw [Bool.and_eq_true, decide_eq_true_eq] at htest
    obtain ⟨-, rfl⟩ := htest
    exact ⟨mem_foldl_keepFirst_of_first (fun _ h => absurd h List.not_mem_nil) hfirst, rfl⟩
  · rintro ⟨hx, rfl⟩
    exact ((first_of_mem_foldl_keepFirst hx).resolve_left List.not_mem_nil).2

namespace Content

theorem mem_conditions_ofRecords (hids : (conditions.map (·.id)).Nodup) :
    c ∈ (ofRecords conditions effects).conditions ↔
      c ∈ conditions ∧ c.isActive = true ∧ usableCondition c = true := by
  have hactive : ((([] : List Condition) ++ conditions.filter (·.isActive)).map (·.id)).Nodup :=
    hids.sublist (List.filter_sublist.map _)
  rw [ofRecords, mem_foldl_keepFirst hactive, List.mem_filter, and_assoc]
  exact or_iff_right List.not_mem_nil

theorem mem_effects_ofRecords (hids : (effects.map (·.id)).Nodup) {e : Effect} :
    e ∈ (ofRecords conditions effects).effects ↔
      e ∈ effects ∧ e.isActive = true ∧ usableEffect e = true := by
  have hactive : ((([] : List Effect) ++ effects.filter (·.isActive)).map (·.id)).Nodup :=
    hids.sublist (List.filter_sublist.map _)
  rw [ofRecords, mem_foldl_keepFirst hactive, List.mem_filter, and_assoc]
  exact or_iff_right List.not_mem_nil

theorem mem_conditions_update :
    d ∈ (r.update c).conditions ↔ (d ∈ r.conditions ∧ d.id ≠ c.id) ∨
      d = c ∧ c.isActive = true ∧ usableCondition c = true := by
  have hfree : ∀ d ∈ (r.withoutCondition c.id).conditions, d.id ≠ c.id := fun d hd =>
    (mem_withoutCondition.1 hd).2
  rw [update, keepFirst_of_free hfree, ← mem_withoutCondition]
  cases hactive : c.isActive <;> cases husable : usableCondition c <;> simp

/-- The guard of an effect is the last condition with the id that the effect names. -/
theorem guardVariables_of_found {e : Effect} (hguard : e.guardId = some id)
    (hfound : conditions.reverse.find? (fun d => !d.id.isEmpty && d.id = id) = some c) :
    guardVariables conditions e = activeReads c := by
  rw [guardVariables, guardOf, hguard]
  simp only [hfound, activeReads]
  cases c.isActive with
  | false => rfl
  | true =>
      simp only [guardReads, if_true]
      cases expressionReads c.expression with
      | ok reads => rfl
      | error error => rfl

theorem guardVariables_of_only (hc : c ∈ conditions) (honly : ∀ d ∈ conditions, d.id = c.id → d = c)
    (hnamed : c.id ≠ []) {e : Effect} (hguard : e.guardId = some c.id) :
    guardVariables conditions e = activeReads c := by
  refine guardVariables_of_found hguard ?_
  refine find?_eq_some_of_only (List.mem_reverse.2 hc) (by simpa using hnamed) fun d hd hid => ?_
  rw [Bool.and_eq_true, decide_eq_true_eq] at hid
  exact honly d (List.mem_reverse.1 hd) hid.2

theorem guardVariables_of_mem (hids : (conditions.map (·.id)).Nodup) (hc : c ∈ conditions)
    (hnamed : c.id ≠ []) {e : Effect} (hguard : e.guardId = some c.id) :
    guardVariables conditions e = activeReads c :=
  guardVariables_of_only hc (fun _ hd => List.inj_on_of_nodup_map hids hd hc) hnamed hguard

theorem guardVariables_of_forall_ne {e : Effect}
    (hguard : ∀ c ∈ conditions, e.guardId ≠ some c.id) : guardVariables conditions e = [] := by
  rw [guardVariables, guardOf]
  cases hid : e.guardId with
  | none => rfl
  | some id =>
      have hfound : conditions.reverse.find? (fun d => !d.id.isEmpty && d.id = id) = none := by
        rw [List.find?_eq_none]
        intro d hd hmatch
        rw [Bool.and_eq_true, decide_eq_true_eq] at hmatch
        exact hguard d (List.mem_reverse.1 hd) (by rw [hid, hmatch.2])
      simp only [hfound]
      rfl

theorem guardVariables_replaceCondition (hids : (conditions.map (·.id)).Nodup)
    (hnamed : ∀ c ∈ conditions, c.id ≠ []) (hid : c.id ≠ []) (e : Effect) :
    guardVariables (replaceCondition conditions c) e =
      if e.guardId = some c.id then activeReads c else guardVariables conditions e := by
  have hids' := nodup_replaceCondition hids c
  by_cases hguard : e.guardId = some c.id
  · rw [if_pos hguard, guardVariables_of_mem hids' (mem_replaceCondition.2 (.inl rfl)) hid hguard]
  · rw [if_neg hguard]
    by_cases hother : ∃ d ∈ conditions, e.guardId = some d.id
    · obtain ⟨d, hd, hguardD⟩ := hother
      have hne : d.id ≠ c.id := fun heq => hguard (heq ▸ hguardD)
      have hd' : d ∈ replaceCondition conditions c := mem_replaceCondition.2 (.inr ⟨hd, hne⟩)
      rw [guardVariables_of_mem hids hd (hnamed d hd) hguardD,
        guardVariables_of_mem hids' hd' (hnamed d hd) hguardD]
    · have hnone : ∀ d ∈ conditions, e.guardId ≠ some d.id := fun d hd h => hother ⟨d, hd, h⟩
      rw [guardVariables_of_forall_ne hnone, guardVariables_of_forall_ne]
      intro d hd
      rcases mem_replaceCondition.1 hd with rfl | ⟨hd, -⟩
      · exact hguard
      · exact hnone d hd

/-- The updated content of records is the content of the updated records. -/
theorem mem_conditions_update_ofRecords (hids : (conditions.map (·.id)).Nodup) :
    d ∈ ((ofRecords conditions effects).update c).conditions ↔
      d ∈ (ofRecords (replaceCondition conditions c) effects).conditions := by
  rw [mem_conditions_update, mem_conditions_ofRecords hids,
    mem_conditions_ofRecords (nodup_replaceCondition hids c), mem_replaceCondition]
  constructor
  · rintro (⟨⟨hd, husable⟩, hne⟩ | ⟨rfl, husable⟩)
    · exact ⟨.inr ⟨hd, hne⟩, husable⟩
    · exact ⟨.inl rfl, husable⟩
  · rintro ⟨rfl | ⟨hd, hne⟩, husable⟩
    · exact .inr ⟨rfl, husable⟩
    · exact .inl ⟨⟨hd, husable⟩, hne⟩

/-- The updated content of records and the content of the updated records say the same. -/
theorem update_ofRecords_le (effects : List Effect) (hids : (conditions.map (·.id)).Nodup)
    (hnamed : ∀ c ∈ conditions, c.id ≠ []) (hid : c.id ≠ []) :
    ((ofRecords conditions effects).update c).Le (ofRecords (replaceCondition conditions c) effects) ∧
      (ofRecords (replaceCondition conditions c) effects).Le ((ofRecords conditions effects).update c) := by
  have hguarded := guardVariables_replaceCondition hids hnamed hid
  exact ⟨⟨fun _ => (mem_conditions_update_ofRecords hids).1, fun _ he => he, fun e _ => hguarded e⟩,
    ⟨fun _ => (mem_conditions_update_ofRecords hids).2, fun _ he => he, fun e _ => (hguarded e).symm⟩⟩

end Content

/-- Updates the graph with one condition after the other. -/
def updateConditions (linkChains : Bool) : List Condition → Edit Unit
  | [] => pure ()
  | c :: rest => do
      let _ ← updateCondition linkChains c
      updateConditions linkChains rest

theorem Current.congr (h : Current linked r g) (hle : r.Le r') (hge : r'.Le r) :
    Current linked r' g where
  shows := h.shows.congr hle hge
  chained a ha b hb := by
    rw [h.chained a (hge.effects a ha) b (hge.effects b hb), Content.Feeds, Content.Feeds,
      hge.guarded a ha]
  marked := h.marked

/-- Updates succeed, and lead to a graph that is up to date for the final records. -/
theorem yields_updateConditions {updates : List Condition} (hids : (conditions.map (·.id)).Nodup)
    (hnamed : ∀ c ∈ conditions, c.id ≠ []) (hupdates : ∀ c ∈ updates, c.id ≠ [])
    (h : Current linked (.ofRecords conditions effects) g) :
    ∃ g', Yields (updateConditions linked updates) g () g' ∧
      Current linked (.ofRecords (updates.foldl replaceCondition conditions) effects) g' := by
  induction updates generalizing conditions g with
  | nil => exact ⟨g, .pure () g, h⟩
  | cons c rest ih =>
      rw [List.forall_mem_cons] at hupdates
      obtain ⟨hid, hrest⟩ := hupdates
      obtain ⟨warnings, g₁, hupdate, hcurrent⟩ := yields_updateCondition h.shows c
      obtain ⟨hle, hge⟩ := Content.update_ofRecords_le effects hids hnamed hid
      have hnamed' : ∀ d ∈ replaceCondition conditions c, d.id ≠ [] := by
        intro d hd
        rcases mem_replaceCondition.1 hd with rfl | ⟨hd, -⟩
        · exact hid
        · exact hnamed d hd
      obtain ⟨g₂, hyields, hfinal⟩ :=
        ih (nodup_replaceCondition hids c) hnamed' hrest (hcurrent.congr hle hge)
      exact ⟨g₂, hupdate.bind hyields, hfinal⟩

/-! ### Graphs that agree -/

/-- The ids of the nodes of a type. -/
def idsOf (type : NodeType) (g : Graph) : List Bytes :=
  (g.nodes.filter (·.type = type)).map (·.id)

/-- The graph is the fresh one, in some order and up to variables and entities without edges: conditions
and effects are the same, edges have the same triples, and what is a node of both is marked alike. -/
structure Agrees (g fresh : Graph) : Prop where
  conditions : (g.idsOf .condition).Perm (fresh.idsOf .condition)
  effects : (g.idsOf .effect).Perm (fresh.idsOf .effect)
  triples : g.triples.Perm fresh.triples
  marks : ∀ n ∈ fresh.nodes, (g.node? n.id).map (·.inCycle) = some n.inCycle
  bare : ∀ n ∈ g.nodes, n.id ∉ fresh.ids → (n.type = .variable ∨ n.type = .entity) ∧
    ∀ e ∈ g.edges, e.source ≠ n.id ∧ e.target ≠ n.id

namespace Shows

theorem mem_idsOf_condition (h : Shows linked r g) :
    id ∈ g.idsOf .condition ↔ ∃ c ∈ r.conditions, id = conditionId c.id := by
  simp only [idsOf, List.mem_map, List.mem_filter, decide_eq_true_eq]
  constructor
  · rintro ⟨n, ⟨hn, htype⟩, rfl⟩
    exact (h.node n hn).of_condition htype
  · rintro ⟨c, hc, rfl⟩
    obtain ⟨n, hn, hid⟩ := List.mem_map.1 (h.conditionId_mem.2 ⟨c, hc, rfl⟩)
    obtain ⟨-, -, -, htype⟩ := (h.node n hn).of_conditionId hid
    exact ⟨n, ⟨hn, htype⟩, hid⟩

theorem mem_idsOf_effect (h : Shows linked r g) :
    id ∈ g.idsOf .effect ↔ ∃ e ∈ r.effects, id = effectId e.id := by
  simp only [idsOf, List.mem_map, List.mem_filter, decide_eq_true_eq]
  constructor
  · rintro ⟨n, ⟨hn, htype⟩, rfl⟩
    obtain ⟨e, he, hid, -⟩ := (h.node n hn).of_effect htype
    exact ⟨e, he, hid⟩
  · rintro ⟨e, he, rfl⟩
    obtain ⟨n, hn, hid, htype, -⟩ := h.exists_effectNode he
    exact ⟨n, ⟨hn, htype⟩, hid⟩

end Shows

theorem WellFormed.nodup_idsOf (h : g.WellFormed) (type : NodeType) : (g.idsOf type).Nodup :=
  h.ids_nodup.sublist (List.filter_sublist.map _)

theorem adj_iff_of_mem_triples_iff {fresh : Graph}
    (htriples : ∀ t, t ∈ g.triples ↔ t ∈ fresh.triples) (source target : Bytes) :
    g.Adj source target ↔ fresh.Adj source target := by
  have hadj : ∀ g : Graph, g.Adj source target ↔ ∃ type, (source, target, type) ∈ g.triples := by
    intro g
    constructor
    · rintro ⟨e, he, rfl, rfl⟩
      exact ⟨e.type, List.mem_map_of_mem he⟩
    · rintro ⟨type, hmem⟩
      obtain ⟨e, he, hsource, htarget, -⟩ := mem_triples_iff.1 hmem
      exact ⟨e, he, hsource, htarget⟩
  rw [hadj, hadj]
  exact exists_congr fun type => htriples (source, target, type)

namespace Current

variable {fresh : Graph}

/-- All nodes of a graph without bare nodes are in every graph that has its records and its edges. -/
theorem ids_subset (h : Current linked r g) (hfresh : Current linked r' fresh)
    (hconditions : ∀ c ∈ r'.conditions, c ∈ r.conditions) (heffects : ∀ e ∈ r'.effects, e ∈ r.effects)
    (htriples : ∀ t ∈ fresh.triples, t ∈ g.triples) (hattached : Attached fresh) :
    ∀ n ∈ fresh.nodes, n.id ∈ g.ids := by
  intro n hn
  have hbare : n.type = .variable ∨ n.type = .entity → n.id ∈ g.ids := by
    intro htype
    obtain ⟨e, he, hat⟩ := hattached n hn htype
    have hmem : e.triple ∈ g.triples := htriples _ (List.mem_map_of_mem he)
    obtain ⟨hsource, htarget⟩ := h.shows.wellFormed.mem_ids_of_mem_triples hmem
    exact hat.elim (fun heq => heq ▸ hsource) fun heq => heq ▸ htarget
  cases hfresh.shows.node n hn with
  | ofVariable name mark => exact hbare (.inl rfl)
  | ofEntity labels ref mark => exact hbare (.inr rfl)
  | ofCondition hc mark => exact h.shows.conditionId_mem.2 ⟨_, hconditions _ hc, rfl⟩
  | ofEffect he mark => exact h.shows.effectId_mem.2 ⟨_, heffects _ he, rfl⟩

/-- Graphs that are up to date agree if they have the same records and the same edges. -/
theorem agrees_of_triples (h : Current linked r g) (hfresh : Current linked r' fresh)
    (hconditions : ∀ c, c ∈ r.conditions ↔ c ∈ r'.conditions)
    (heffects : ∀ e, e ∈ r.effects ↔ e ∈ r'.effects)
    (htriples : ∀ t, t ∈ g.triples ↔ t ∈ fresh.triples) (hattached : Attached fresh) :
    Agrees g fresh := by
  have hwellFormed := h.shows.wellFormed
  have hwellFormed' := hfresh.shows.wellFormed
  have hadj : g.Adj = fresh.Adj := by
    funext source target
    exact propext (adj_iff_of_mem_triples_iff htriples source target)
  refine ⟨?_, ?_, ?_, fun n hn => ?_, fun n hn hextra => ⟨?_, fun e he => ?_⟩⟩
  · refine (List.perm_ext_iff_of_nodup (hwellFormed.nodup_idsOf _) (hwellFormed'.nodup_idsOf _)).2 ?_
    intro id
    rw [h.shows.mem_idsOf_condition, hfresh.shows.mem_idsOf_condition]
    exact exists_congr fun c => and_congr_left' (hconditions c)
  · refine (List.perm_ext_iff_of_nodup (hwellFormed.nodup_idsOf _) (hwellFormed'.nodup_idsOf _)).2 ?_
    intro id
    rw [h.shows.mem_idsOf_effect, hfresh.shows.mem_idsOf_effect]
    exact exists_congr fun e => and_congr_left' (heffects e)
  · exact (List.perm_ext_iff_of_nodup hwellFormed.triples_nodup hwellFormed'.triples_nodup).2 htriples
  · have hids := h.ids_subset hfresh (fun c => (hconditions c).2) (fun e => (heffects e).2)
      (fun t => (htriples t).2) hattached
    obtain ⟨m, hm, hid⟩ := List.mem_map.1 (hids n hn)
    rw [(node?_eq_some_iff hwellFormed).2 ⟨hm, hid⟩, Option.map_some, Option.some.injEq,
      Bool.eq_iff_iff, h.marked m hm, hfresh.marked n hn, hid, hadj]
  · cases h.shows.node n hn with
    | ofVariable name mark => exact .inl rfl
    | ofEntity labels ref mark => exact .inr rfl
    | ofCondition hc mark =>
        exact absurd (hfresh.shows.conditionId_mem.2 ⟨_, (hconditions _).1 hc, rfl⟩) hextra
    | ofEffect he mark =>
        exact absurd (hfresh.shows.effectId_mem.2 ⟨_, (heffects _).1 he, rfl⟩) hextra
  · obtain ⟨hsource, htarget⟩ :=
      hwellFormed'.mem_ids_of_mem_triples ((htriples _).1 (List.mem_map_of_mem he))
    exact ⟨fun heq => hextra (heq ▸ hsource), fun heq => hextra (heq ▸ htarget)⟩

/-- Graphs that are up to date for the same content agree. -/
theorem agrees (h : Current linked r g) (hfresh : Current linked r fresh)
    (hattached : Attached fresh) : Agrees g fresh :=
  h.agrees_of_triples hfresh (fun _ => .rfl) (fun _ => .rfl)
    (fun _ => h.mem_triples.trans hfresh.mem_triples.symm) hattached

end Current

/-- Updating a built graph with conditions, one after the other, succeeds and gives the graph that is
built anew from the final records. -/
theorem update_agrees_with_rebuild (linkChains : Bool) (conditions updates : List Condition)
    (effects : List Effect) (entities : List Entity) (hids : (conditions.map (·.id)).Nodup)
    (hnamed : ∀ c ∈ conditions, c.id ≠ []) (hupdates : ∀ c ∈ updates, c.id ≠ []) :
    ∃ g, (updateConditions linkChains updates).run
        (GraphBuild.ofRecords linkChains conditions effects entities).graph = (.ok (), g) ∧
      Agrees g (GraphBuild.ofRecords linkChains (updates.foldl replaceCondition conditions) effects
        entities).graph := by
  obtain ⟨g, hyields, hcurrent⟩ := yields_updateConditions hids hnamed hupdates
    (current_ofRecords conditions effects entities)
  exact ⟨g, hyields, hcurrent.agrees (current_ofRecords _ _ _) (attached_ofRecords _ _ _)⟩

/-- A tax on the rich inspects the gold itself, so it goes on reading it when nobody counts as rich any
more; and it stays on a cycle with the trade that it feeds. -/
theorem update_agrees_with_rebuild_tax :
    let town : EntityRef := ⟨"SETTLEMENT", "s1"⟩
    let rich : Condition := ⟨"rich", "SETTLEMENT", some "s1", "isRich",
      .object [(">", .array [.object [("var", "gold")], .unsigned 1])], [], 0, true, 1, [], []⟩
    let tax : Effect := ⟨"tax", "tax", town, .pre, 0,
      .array [.object [("op", "test"), ("path", "/variables/gold"), ("value", .unsigned 5)],
        .object [("op", "add"), ("path", "/variables/food"), ("value", .unsigned 1)]],
      true, some "rich", [], [], []⟩
    let trade : Effect := ⟨"trade", "trade", town, .pre, 0,
      .array [.object [("op", "copy"), ("from", "/variables/food"), ("path", "/variables/gold")]],
      true, none, [], [], []⟩
    let grainRich : Condition :=
      { rich with expression := .object [(">", .array [.object [("var", "grain")], .unsigned 1])] }
    let nobody : Condition := { rich with isActive := false }
    ∃ g, (updateConditions true [grainRich, nobody]).run
        (GraphBuild.ofRecords true [rich] [tax, trade] []).graph = (.ok (), g) ∧
      conditionId "rich" ∉ g.idsOf .condition ∧
      (effectId "tax", variableId "gold", .reads) ∈ g.triples ∧
      (effectId "tax", variableId "grain", .reads) ∉ g.triples ∧
      (g.node? (effectId "tax")).map (·.inCycle) = some true := by
  intro town rich tax trade grainRich nobody
  obtain ⟨g, hrun, hagrees⟩ := update_agrees_with_rebuild true [rich] [grainRich, nobody] [tax, trade] []
    (by decide) (by decide) (by decide)
  refine ⟨g, hrun, ?_, ?_, ?_, ?_⟩
  · rw [hagrees.conditions.mem_iff]
    decide +kernel
  · rw [hagrees.triples.mem_iff]
    decide +kernel
  · rw [hagrees.triples.mem_iff]
    decide +kernel
  · have hmarked : ∃ n ∈ (GraphBuild.ofRecords true ([grainRich, nobody].foldl replaceCondition [rich])
        [tax, trade] []).graph.nodes, n.id = effectId "tax" ∧ n.inCycle = true := by decide +kernel
    obtain ⟨n, hn, hid, hmark⟩ := hmarked
    rw [← hid, hagrees.marks n hn, hmark]

end CampaignRules.Graph
