import Mathlib.Data.Fintype.Card
import Mathlib.Data.Set.Finite.Basic
import Mathlib.Order.WellFounded
import CampaignRules.Graph.Order
import CampaignRules.Proofs.Bytes
import CampaignRules.Proofs.Graph.Component

/-! The evaluation order leaves out exactly the nodes on cycles and what they depend on. At any time a
node has as many incoming edges left as lead to it from nodes not taken yet, and those that are ready
are the nodes not taken that have none left. So a node is taken after all that depend on it. When
nothing is ready, each node that remains has an edge from another such node, and following these edges
backwards in a finite graph ends in a cycle. The nodes that are ready are a set, so the order in which
nodes and edges were added does not show. -/

namespace CampaignRules

namespace Graph

variable {g h : Graph} {id x y : Bytes}

/-- In a finite set of nodes each of which has an edge from another one in it, going backwards ends in a
cycle. -/
theorem exists_cycle_reaching {rest : List Bytes} (hback : ∀ y ∈ rest, ∃ z ∈ rest, g.Adj z y)
    (hx : x ∈ rest) : ∃ c, Relation.TransGen g.Adj c c ∧ g.Reaches c x := by
  by_contra hnone
  have hnone : ∀ c, g.Reaches c x → ¬Relation.TransGen g.Adj c c :=
    fun c hreach hcycle => hnone ⟨c, hcycle, hreach⟩
  let Behind := {y // y ∈ rest ∧ g.Reaches y x}
  have : Finite Behind := (rest.finite_toSet.subset fun y hy => hy.1 :
    {y | y ∈ rest ∧ g.Reaches y x}.Finite)
  let before : Behind → Behind → Prop := fun a b => Relation.TransGen g.Adj a.1 b.1
  have : IsTrans Behind before := ⟨fun _ _ _ hab hbc => hab.trans hbc⟩
  have : Std.Irrefl before := ⟨fun a hcycle => hnone a.1 a.2.2 hcycle⟩
  obtain ⟨least, -, hleast⟩ := (Finite.wellFounded_of_trans_of_irrefl before).has_min Set.univ
    ⟨⟨x, hx, .refl⟩, trivial⟩
  obtain ⟨z, hz, hadj⟩ := hback least.1 least.2.1
  exact hleast ⟨z, hz, .head hadj least.2.2⟩ trivial (.single hadj)

theorem count_targets : (g.targets id).count x =
    g.edges.countP fun e => e.target = x ∧ e.source = id := by
  simp [targets, outgoing, List.count, List.countP_map, List.countP_filter, Function.comp_def,
    beq_eq_decide]

namespace Sorting

variable {s : Sorting} {targets : List Bytes}

@[simp] theorem taken_release (s : Sorting) (id : Bytes) : (s.release id).taken = s.taken := rfl

theorem inDegree_release (s : Sorting) (id x : Bytes) :
    (s.release id).inDegree x = s.inDegree x - if x = id then 1 else 0 := by
  by_cases hx : x = id <;> simp [release, hx]

theorem mem_ready_release : x ∈ (s.release id).ready ↔
    x ∈ s.ready ∨ (x = id ∧ s.inDegree x ≤ 1) := by
  by_cases hleft : s.inDegree id - 1 = 0
  · have hready : (s.release id).ready = Bytes.insertSorted id s.ready := if_pos hleft
    rw [hready, Bytes.mem_insertSorted]
    constructor
    · rintro (rfl | hx)
      · exact Or.inr ⟨rfl, by omega⟩
      · exact Or.inl hx
    · rintro (hx | ⟨rfl, -⟩)
      · exact Or.inr hx
      · exact Or.inl rfl
  · have hready : (s.release id).ready = s.ready := if_neg hleft
    rw [hready]
    refine ⟨Or.inl, ?_⟩
    rintro (hx | ⟨rfl, hle⟩)
    · exact hx
    · omega

theorem ready_release_pairwise (hs : s.ready.Pairwise (· < ·)) (id : Bytes) :
    (s.release id).ready.Pairwise (· < ·) := by
  rw [release]
  split
  · exact Bytes.insertSorted_pairwise hs
  · exact hs

theorem taken_foldl_release : (targets.foldl release s).taken = s.taken := by
  induction targets generalizing s with
  | nil => rfl
  | cons t rest ih => rw [List.foldl_cons, ih, taken_release]

theorem taken_take (s : Sorting) (id : Bytes) (rest : List Bytes) :
    (s.take g id rest).taken = s.taken ++ [id] :=
  taken_foldl_release

theorem ready_foldl_release_pairwise (hs : s.ready.Pairwise (· < ·)) :
    (targets.foldl release s).ready.Pairwise (· < ·) := by
  induction targets generalizing s with
  | nil => exact hs
  | cons t rest ih => exact ih (ready_release_pairwise hs t)

/-- Each occurrence among the targets takes one incoming edge away. -/
theorem inDegree_foldl_release :
    (targets.foldl release s).inDegree x = s.inDegree x - targets.count x := by
  induction targets generalizing s with
  | nil => rfl
  | cons t rest ih =>
      rw [List.foldl_cons, ih, inDegree_release, List.count_cons]
      by_cases hx : x = t
      · subst hx
        simp only [if_true, beq_self_eq_true]
        omega
      · simp [hx, Ne.symm hx]

/-- A target becomes ready when as many edges were taken away as there were. -/
theorem mem_ready_foldl_release : x ∈ (targets.foldl release s).ready ↔
    x ∈ s.ready ∨ (x ∈ targets ∧ s.inDegree x ≤ targets.count x) := by
  induction targets generalizing s with
  | nil => simp
  | cons t rest ih =>
      rw [List.foldl_cons, ih, mem_ready_release, inDegree_release, List.count_cons, List.mem_cons]
      by_cases hx : x = t
      · subst hx
        simp only [if_true, beq_self_eq_true, true_and, true_or]
        by_cases hmem : x ∈ rest
        · have hpos := List.count_pos_iff.2 hmem
          constructor
          · rintro ((hready | hle) | ⟨-, hle⟩)
            · exact Or.inl hready
            · exact Or.inr (by omega)
            · exact Or.inr (by omega)
          · rintro (hready | hle)
            · exact Or.inl (Or.inl hready)
            · exact Or.inr ⟨hmem, by omega⟩
        · simp [hmem, List.count_eq_zero_of_not_mem hmem]
      · simp [hx, Ne.symm hx]

/-- The targets may be gone through in any order. -/
theorem foldl_release_congr {targets' : List Bytes} (hs : s.ready.Pairwise (· < ·))
    (hperm : targets.Perm targets') : targets.foldl release s = targets'.foldl release s := by
  have hdegree : (targets.foldl release s).inDegree = (targets'.foldl release s).inDegree := by
    funext x
    rw [inDegree_foldl_release, inDegree_foldl_release, hperm.count_eq]
  have hready : (targets.foldl release s).ready = (targets'.foldl release s).ready := by
    refine Bytes.eq_of_mem_iff (ready_foldl_release_pairwise hs) (ready_foldl_release_pairwise hs) ?_
    intro x
    rw [mem_ready_foldl_release, mem_ready_foldl_release, hperm.mem_iff, hperm.count_eq]
  have htaken : (targets.foldl release s).taken = (targets'.foldl release s).taken := by
    rw [taken_foldl_release, taken_foldl_release]
  generalize targets.foldl release s = a at *
  generalize targets'.foldl release s = b at *
  cases a
  cases b
  simp_all

/-- What holds of a sorting at the start of each turn. -/
structure Sound (g : Graph) (s : Sorting) : Prop where
  ready_sorted : s.ready.Pairwise (· < ·)
  mem_ready : ∀ x, x ∈ s.ready ↔ (x ∈ g.ids ∧ x ∉ s.taken) ∧ s.inDegree x = 0
  inDegree_eq : ∀ x, s.inDegree x = g.edges.countP fun e => e.target = x ∧ e.source ∉ s.taken
  taken_nodup : s.taken.Nodup
  taken_ids : ∀ x ∈ s.taken, x ∈ g.ids
  source_before : ∀ x y, g.Adj x y → y ∈ s.taken → s.taken.idxOf x < s.taken.idxOf y

theorem sound_start : Sound g (start g) where
  ready_sorted := Bytes.sortedSet_pairwise _
  mem_ready x := by simp [start]
  inDegree_eq x := by simp [start, incoming, List.countP_eq_length_filter]
  taken_nodup := List.nodup_nil
  taken_ids _ hx := absurd hx List.not_mem_nil
  source_before _ _ _ hy := absurd hy List.not_mem_nil

theorem inDegree_eq_zero_iff (hs : Sound g s) :
    s.inDegree x = 0 ↔ ∀ source, g.Adj source x → source ∈ s.taken := by
  rw [hs.inDegree_eq, List.countP_eq_zero]
  simp only [decide_eq_true_eq, not_and, not_not]
  constructor
  · rintro hall source ⟨e, he, rfl, htarget⟩
    exact hall e he htarget
  · intro hall e he htarget
    exact hall e.source ⟨e, he, rfl, htarget⟩

/-- A ready node was not taken, and all that depend on it were. -/
theorem free_of_ready (hs : Sound g s) (hready : id ∈ s.ready) :
    (id ∈ g.ids ∧ id ∉ s.taken) ∧ ∀ source, g.Adj source id → source ∈ s.taken := by
  obtain ⟨hid, hfree⟩ := (hs.mem_ready id).1 hready
  exact ⟨hid, (inDegree_eq_zero_iff hs).1 hfree⟩

theorem mem_taken_of_adj (hs : Sound g s) (hadj : g.Adj x y) (hy : y ∈ s.taken) : x ∈ s.taken :=
  List.idxOf_lt_length_iff.1 ((hs.source_before x y hadj hy).trans (List.idxOf_lt_length_iff.2 hy))

/-- The edges into a node that are left without one more source. -/
theorem countP_source_not_mem {taken : List Bytes} (hnew : id ∉ taken) (edges : List Edge) (x : Bytes) :
    (edges.countP fun e => e.target = x ∧ e.source ∉ taken) =
      (edges.countP fun e => e.target = x ∧ e.source ∉ taken ++ [id]) +
        edges.countP fun e => e.target = x ∧ e.source = id := by
  induction edges with
  | nil => rfl
  | cons e edges ih =>
      simp only [List.countP_cons, ih, List.mem_append, List.mem_singleton, not_or]
      by_cases hsource : e.source = id
      · simp only [hsource, hnew, not_false_eq_true, not_true_eq_false, and_true, and_false]
        grind
      · simp only [hsource, not_false_eq_true, and_true, and_false]
        grind

section Turn

variable {rest : List Bytes} (hg : g.WellFormed) (hs : Sound g s) (hready : s.ready = id :: rest)

include hs hready

theorem free_head : (id ∈ g.ids ∧ id ∉ s.taken) ∧ ∀ source, g.Adj source id → source ∈ s.taken :=
  free_of_ready hs (by rw [hready]; exact List.mem_cons_self)

/-- Nothing that a ready node leads to was taken. -/
theorem not_taken_of_adj_head (hadj : g.Adj id x) : x ∉ s.taken ++ [id] := by
  obtain ⟨⟨-, hnew⟩, hsources⟩ := free_head hs hready
  rw [List.mem_append, not_or, List.mem_singleton]
  refine ⟨fun hx => hnew (mem_taken_of_adj hs hadj hx), ?_⟩
  rintro rfl
  exact hnew (hsources x hadj)

theorem inDegree_turn (x : Bytes) : s.inDegree x - (g.targets id).count x =
    g.edges.countP fun e => e.target = x ∧ e.source ∉ s.taken ++ [id] := by
  rw [hs.inDegree_eq, count_targets, countP_source_not_mem (free_head hs hready).1.2,
    Nat.add_sub_cancel]

include hg in
theorem mem_ready_turn : (x ∈ rest ∨ (x ∈ g.targets id ∧ s.inDegree x ≤ (g.targets id).count x)) ↔
    (x ∈ g.ids ∧ x ∉ s.taken ++ [id]) ∧ s.inDegree x - (g.targets id).count x = 0 := by
  have hsorted := hs.ready_sorted
  rw [hready, List.pairwise_cons] at hsorted
  constructor
  · rintro (hx | ⟨hx, hle⟩)
    · have hmem : x ∈ s.ready := by
        rw [hready]
        exact List.mem_cons_of_mem _ hx
      obtain ⟨⟨hids, hnot⟩, hzero⟩ := (hs.mem_ready x).1 hmem
      have hne : x ≠ id := by
        rintro rfl
        exact List.lt_irrefl _ (hsorted.1 x hx)
      exact ⟨⟨hids, by simp [hnot, hne]⟩, by rw [hzero, Nat.zero_sub]⟩
    · have hadj : g.Adj id x := mem_targets.1 hx
      exact ⟨⟨(hg.adj_mem hadj).2, not_taken_of_adj_head hs hready hadj⟩, Nat.sub_eq_zero_of_le hle⟩
  · rintro ⟨⟨hids, hnot⟩, hzero⟩
    rw [List.mem_append, not_or, List.mem_singleton] at hnot
    by_cases hx : x ∈ g.targets id
    · exact Or.inr ⟨hx, Nat.le_of_sub_eq_zero hzero⟩
    · rw [List.count_eq_zero_of_not_mem hx, Nat.sub_zero] at hzero
      have hmem := (hs.mem_ready x).2 ⟨⟨hids, hnot.1⟩, hzero⟩
      rw [hready, List.mem_cons] at hmem
      exact Or.inl (hmem.resolve_left hnot.2)

theorem source_before_turn (hadj : g.Adj x y) (hy : y ∈ s.taken ++ [id]) :
    (s.taken ++ [id]).idxOf x < (s.taken ++ [id]).idxOf y := by
  obtain ⟨⟨-, hnew⟩, hsources⟩ := free_head hs hready
  rcases List.mem_append.1 hy with hy | hy
  · rw [List.idxOf_append_of_mem (mem_taken_of_adj hs hadj hy), List.idxOf_append_of_mem hy]
    exact hs.source_before x y hadj hy
  · rw [List.mem_singleton.1 hy] at hadj ⊢
    have hx := hsources x hadj
    rw [List.idxOf_append_of_mem hx, List.idxOf_append_of_notMem hnew]
    exact (List.idxOf_lt_length_iff.2 hx).trans_le (Nat.le_add_right _ _)

include hg in
/-- A turn keeps the invariant. -/
theorem sound_take : Sound g (s.take g id rest) := by
  obtain ⟨⟨hid, hnew⟩, -⟩ := free_head hs hready
  have hsorted := hs.ready_sorted
  rw [hready, List.pairwise_cons] at hsorted
  constructor
  case ready_sorted => exact ready_foldl_release_pairwise hsorted.2
  case mem_ready =>
    intro x
    rw [taken_take, take, mem_ready_foldl_release, inDegree_foldl_release]
    exact mem_ready_turn hg hs hready
  case inDegree_eq =>
    intro x
    rw [taken_take, take, inDegree_foldl_release]
    exact inDegree_turn hs hready x
  all_goals rw [taken_take]
  case taken_nodup => exact hs.taken_nodup.append (List.nodup_singleton _) (by simpa using hnew)
  case taken_ids =>
    intro x hx
    rcases List.mem_append.1 hx with hx | hx
    · exact hs.taken_ids x hx
    · rw [List.mem_singleton.1 hx]
      exact hid
  case source_before => exact fun x y => source_before_turn hs hready

end Turn

/-! ### The whole sorting -/

/-- With fuel for all nodes the sorting goes on until nothing is ready. -/
theorem sound_run (hg : g.WellFormed) : ∀ (fuel : Nat) (s : Sorting), Sound g s →
    g.ids.length ≤ s.taken.length + fuel → Sound g (run g fuel s) ∧ (run g fuel s).ready = [] := by
  intro fuel
  induction fuel with
  | zero =>
      intro s hs hfuel
      refine ⟨hs, List.eq_nil_iff_forall_not_mem.2 fun x hx => ?_⟩
      obtain ⟨⟨hids, hnot⟩, -⟩ := (hs.mem_ready x).1 hx
      have hle := (List.subperm_of_subset (List.nodup_cons.2 ⟨hnot, hs.taken_nodup⟩)
        (List.cons_subset.2 ⟨hids, hs.taken_ids⟩)).length_le
      rw [List.length_cons] at hle
      omega
  | succ fuel ih =>
      intro s hs hfuel
      cases hready : s.ready with
      | nil =>
          have hrun : run g (fuel + 1) s = s := by rw [run, hready]
          rw [hrun]
          exact ⟨hs, hready⟩
      | cons id rest =>
          have hrun : run g (fuel + 1) s = run g fuel (s.take g id rest) := by rw [run, hready]
          rw [hrun]
          refine ih _ (sound_take hg hs hready) ?_
          rw [taken_take, List.length_append, List.length_singleton]
          omega

theorem mem_taken_of_reaches (hs : Sound g s) (hreach : g.Reaches x y) (hy : y ∈ s.taken) :
    x ∈ s.taken := by
  induction hreach using Relation.ReflTransGen.head_induction_on with
  | refl => exact hy
  | head hadj _ ih => exact mem_taken_of_adj hs hadj ih

theorem idxOf_lt_of_transGen (hs : Sound g s) (hwalk : Relation.TransGen g.Adj x y)
    (hy : y ∈ s.taken) : s.taken.idxOf x < s.taken.idxOf y := by
  induction hwalk with
  | single hadj => exact hs.source_before x _ hadj hy
  | tail _ hadj ih => exact (ih (mem_taken_of_adj hs hadj hy)).trans (hs.source_before _ _ hadj hy)

/-- When nothing is ready, the nodes that a cycle leads to were not taken and all others were. -/
theorem not_mem_taken_iff (hg : g.WellFormed) (hs : Sound g s) (hready : s.ready = [])
    (hx : x ∈ g.ids) :
    x ∉ s.taken ↔ ∃ c, Relation.TransGen g.Adj c c ∧ g.Reaches c x := by
  constructor
  · intro hnot
    have hback : ∀ y ∈ g.ids.filter (· ∉ s.taken), ∃ z ∈ g.ids.filter (· ∉ s.taken), g.Adj z y := by
      simp only [List.mem_filter, decide_eq_true_eq]
      intro y hy
      have hdegree : s.inDegree y ≠ 0 := fun hzero => by
        have hmem := (hs.mem_ready y).2 ⟨hy, hzero⟩
        rw [hready] at hmem
        exact List.not_mem_nil hmem
      rw [Ne, inDegree_eq_zero_iff hs] at hdegree
      push Not at hdegree
      obtain ⟨z, hadj, hz⟩ := hdegree
      exact ⟨z, ⟨(hg.adj_mem hadj).1, hz⟩, hadj⟩
    exact exists_cycle_reaching hback (List.mem_filter.2 ⟨hx, decide_eq_true hnot⟩)
  · rintro ⟨c, hcycle, hreach⟩ hmem
    exact lt_irrefl _ (idxOf_lt_of_transGen hs hcycle (mem_taken_of_reaches hs hreach hmem))

theorem inDegree_pos_iff (hs : Sound g s) (hready : s.ready = []) (hx : x ∈ g.ids) :
    0 < s.inDegree x ↔ x ∉ s.taken := by
  rw [Nat.pos_iff_ne_zero]
  constructor
  · intro hne hmem
    exact hne ((inDegree_eq_zero_iff hs).2 fun source hadj => mem_taken_of_adj hs hadj hmem)
  · intro hnot hzero
    have hmem := (hs.mem_ready x).2 ⟨⟨hx, hnot⟩, hzero⟩
    rw [hready] at hmem
    exact List.not_mem_nil hmem

/-- The order in which a node's targets are listed does not show in a run. -/
theorem run_congr (htargets : ∀ id, (g.targets id).Perm (h.targets id)) :
    ∀ (fuel : Nat) (s : Sorting), s.ready.Pairwise (· < ·) → run g fuel s = run h fuel s := by
  intro fuel
  induction fuel with
  | zero => exact fun _ _ => rfl
  | succ fuel ih =>
      intro s hs
      rw [run, run]
      cases hready : s.ready with
      | nil => rfl
      | cons id rest =>
          rw [hready, List.pairwise_cons] at hs
          have htake : s.take g id rest = s.take h id rest := foldl_release_congr hs.2 (htargets id)
          have hsorted : (s.take h id rest).ready.Pairwise (· < ·) := ready_foldl_release_pairwise hs.2
          exact (congrArg (run g fuel) htake).trans (ih _ hsorted)

end Sorting

theorem WellFormed.triples_perm (hg : g.WellFormed) (hh : h.WellFormed)
    (htriples : ∀ t, t ∈ g.triples ↔ t ∈ h.triples) : g.triples.Perm h.triples :=
  (List.perm_ext_iff_of_nodup hg.triples_nodup hh.triples_nodup).2 htriples

theorem targets_eq_triples : g.targets id = (g.triples.filter fun t => t.1 = id).map (·.2.1) := by
  simp only [targets, outgoing, triples, List.filter_map, List.map_map]
  rfl

theorem incoming_eq_triples :
    (g.incoming id).length = (g.triples.filter fun t => t.2.1 = id).length := by
  simp only [incoming, triples, List.filter_map, List.length_map]
  rfl

theorem exists_sorting (hg : g.WellFormed) : ∃ s, Sorting.Sound g s ∧ s.ready = [] ∧
    g.topologicalOrder.order = s.taken.reverse ∧
    ∀ x, x ∈ g.topologicalOrder.remaining ↔ x ∈ g.ids ∧ x ∉ s.taken := by
  obtain ⟨hs, hready⟩ := Sorting.sound_run hg g.nodes.length (.start g) Sorting.sound_start
    (by simp [Sorting.start, ids])
  refine ⟨_, hs, hready, rfl, fun x => ?_⟩
  rw [topologicalOrder, Bytes.mem_sortedSet, List.mem_filter, decide_eq_true_eq]
  exact and_congr_right fun hx => Sorting.inDegree_pos_iff hs hready hx

/-- The nodes that remain are those that a cycle leads to. -/
theorem mem_remaining_iff (hg : g.WellFormed) : id ∈ g.topologicalOrder.remaining ↔
    ∃ c, Relation.TransGen g.Adj c c ∧ g.Reaches c id := by
  obtain ⟨s, hs, hready, -, hremaining⟩ := exists_sorting hg
  rw [hremaining]
  constructor
  · rintro ⟨hid, hnot⟩
    exact (Sorting.not_mem_taken_iff hg hs hready hid).1 hnot
  · rintro ⟨c, hcycle, hreach⟩
    obtain ⟨_, -, hlast⟩ := Relation.TransGen.tail'_iff.1 (hcycle.trans_left hreach)
    have hid := (hg.adj_mem hlast).2
    exact ⟨hid, (Sorting.not_mem_taken_iff hg hs hready hid).2 ⟨c, hcycle, hreach⟩⟩

theorem isComplete_eq_false_iff (hg : g.WellFormed) :
    g.topologicalOrder.isComplete = false ↔ ∃ c, Relation.TransGen g.Adj c c := by
  rw [Order.isComplete, List.isEmpty_eq_false_iff_exists_mem]
  constructor
  · rintro ⟨id, hid⟩
    obtain ⟨c, hcycle, -⟩ := (mem_remaining_iff hg).1 hid
    exact ⟨c, hcycle⟩
  · rintro ⟨c, hcycle⟩
    exact ⟨c, (mem_remaining_iff hg).2 ⟨c, hcycle, .refl⟩⟩

theorem nodup_order_append_remaining (hg : g.WellFormed) :
    (g.topologicalOrder.order ++ g.topologicalOrder.remaining).Nodup ∧
    ∀ id, id ∈ g.topologicalOrder.order ++ g.topologicalOrder.remaining ↔ id ∈ g.ids := by
  obtain ⟨s, hs, -, horder, hremaining⟩ := exists_sorting hg
  have hsorted : g.topologicalOrder.remaining.Nodup := Bytes.sortedSet_nodup _
  constructor
  · refine List.Nodup.append ?_ hsorted fun x hx hx' => ?_
    · rw [horder]
      exact List.nodup_reverse.2 hs.taken_nodup
    · rw [horder, List.mem_reverse] at hx
      exact ((hremaining x).1 hx').2 hx
  · intro id
    rw [List.mem_append, horder, List.mem_reverse, hremaining]
    constructor
    · rintro (hid | ⟨hid, -⟩)
      · exact hs.taken_ids id hid
      · exact hid
    · intro hid
      by_cases htaken : id ∈ s.taken
      · exact Or.inl htaken
      · exact Or.inr ⟨hid, htaken⟩

theorem idxOf_reverse_lt {l : List Bytes} (hl : l.Nodup) (hy : y ∈ l) (hlt : l.idxOf x < l.idxOf y) :
    l.reverse.idxOf y < l.reverse.idxOf x := by
  induction l with
  | nil => cases hy
  | cons a rest ih =>
      obtain ⟨ha, hrest⟩ := List.nodup_cons.1 hl
      rw [List.reverse_cons]
      have hya : y ≠ a := by
        rintro rfl
        rw [List.idxOf_cons_self] at hlt
        exact Nat.not_lt_zero _ hlt
      have hy : y ∈ rest := (List.mem_cons.1 hy).resolve_left hya
      have hy' : y ∈ rest.reverse := List.mem_reverse.2 hy
      rw [List.idxOf_append_of_mem hy']
      by_cases hx : x ∈ rest
      · have hxa : x ≠ a := by
          rintro rfl
          exact ha hx
        rw [List.idxOf_cons_ne _ hxa.symm, List.idxOf_cons_ne _ hya.symm] at hlt
        rw [List.idxOf_append_of_mem (List.mem_reverse.2 hx)]
        exact ih hrest hy (Nat.lt_of_succ_lt_succ hlt)
      · rw [List.idxOf_append_of_notMem (by simpa using hx)]
        exact (List.idxOf_lt_length_iff.2 hy').trans_le (Nat.le_add_right _ _)

/-- What a node depends on stands before it. -/
theorem idxOf_target_lt (hg : g.WellFormed) (hadj : g.Adj x y)
    (hy : y ∈ g.topologicalOrder.order) :
    g.topologicalOrder.order.idxOf y < g.topologicalOrder.order.idxOf x := by
  obtain ⟨s, hs, -, horder, -⟩ := exists_sorting hg
  rw [horder, List.mem_reverse] at hy
  rw [horder]
  exact idxOf_reverse_lt hs.taken_nodup hy (hs.source_before x y hadj hy)

/-- The order depends on nothing but the set of nodes and the set of edges. -/
theorem topologicalOrder_congr (hg : g.WellFormed) (hh : h.WellFormed)
    (hids : ∀ id, id ∈ g.ids ↔ id ∈ h.ids) (htriples : ∀ t, t ∈ g.triples ↔ t ∈ h.triples) :
    g.topologicalOrder = h.topologicalOrder := by
  have hperm := hg.triples_perm hh htriples
  have hdegree : ∀ id, (g.incoming id).length = (h.incoming id).length := fun id => by
    rw [incoming_eq_triples, incoming_eq_triples, (hperm.filter _).length_eq]
  have hstart : Sorting.start g = Sorting.start h := by
    simp only [Sorting.start, hdegree, Sorting.mk.injEq, true_and, and_true]
    exact Bytes.sortedSet_congr fun x => by simp only [List.mem_filter, hids]
  have hlength : g.nodes.length = h.nodes.length := by
    have h := ((List.perm_ext_iff_of_nodup hg.ids_nodup hh.ids_nodup).2 hids).length_eq
    simpa [ids] using h
  have hrun : Sorting.run g g.nodes.length (.start g) = Sorting.run h h.nodes.length (.start h) := by
    rw [hstart, hlength]
    refine Sorting.run_congr (fun id => ?_) _ _ Sorting.sound_start.ready_sorted
    rw [targets_eq_triples, targets_eq_triples]
    exact (hperm.filter _).map _
  rw [topologicalOrder, topologicalOrder, hrun]
  simp only [Order.mk.injEq, true_and]
  exact Bytes.sortedSet_congr fun x => by simp [hids]

/-- In every graph that operations make, the order and what remains list each node once; what a node
depends on stands before it; what remains are, in increasing order, the nodes that a cycle leads to;
and graphs with the same nodes and edges, in whatever order these were added, have the same order. -/
theorem topologicalOrder_exact (operations : List Operation) :
    let g := ofOperations operations
    let o := g.topologicalOrder
    ((o.order ++ o.remaining).Nodup ∧ ∀ id, id ∈ o.order ++ o.remaining ↔ id ∈ g.ids) ∧
      (∀ e ∈ g.edges, e.source ∈ o.order → e.target ∈ o.order →
        o.order.idxOf e.target < o.order.idxOf e.source) ∧
      (o.remaining.Pairwise (· < ·) ∧
        ∀ id, id ∈ o.remaining ↔ ∃ c, Relation.TransGen g.Adj c c ∧ g.Reaches c id) ∧
      ∀ others, (∀ id, id ∈ g.ids ↔ id ∈ (ofOperations others).ids) →
        (∀ t, t ∈ g.triples ↔ t ∈ (ofOperations others).triples) →
        o = (ofOperations others).topologicalOrder := by
  have hg := WellFormed.ofOperations operations
  refine ⟨nodup_order_append_remaining hg, fun e he _ htarget => ?_, ?_, fun others hids htriples => ?_⟩
  · exact idxOf_target_lt hg ⟨e, he, rfl, rfl⟩ htarget
  · exact ⟨Bytes.sortedSet_pairwise _, fun id => mem_remaining_iff hg⟩
  · exact topologicalOrder_congr hg (.ofOperations others) hids htriples

/-- Five nodes added in two orders. Two of them are on a cycle that leads to a third, the other two are
ordered, and both graphs have the same order. -/
theorem topologicalOrder_exact_shuffled :
    let node := fun id : Bytes => Operation.addNode ⟨id, .variable, [], [], .null, false⟩
    let edge := fun source target : Bytes => Operation.addEdge ⟨source, target, .reads, .null⟩
    let operations := [node "a", node "b", node "c", node "d", node "e", edge "a" "b", edge "b" "c",
      edge "c" "b", edge "c" "d", edge "e" "a"]
    let others := [node "e", node "d", node "c", node "b", node "a", edge "e" "a", edge "c" "d",
      edge "c" "b", edge "b" "c", edge "a" "b"]
    let o := (ofOperations operations).topologicalOrder
    o = (ofOperations others).topologicalOrder ∧ Bytes.ofString "d" ∈ o.remaining ∧
      o.order.idxOf (Bytes.ofString "a") < o.order.idxOf (Bytes.ofString "e") := by
  intro node edge operations others o
  obtain ⟨-, hbefore, ⟨-, hremaining⟩, hsame⟩ := topologicalOrder_exact operations
  have hids : (ofOperations operations).ids.Perm (ofOperations others).ids := by decide +kernel
  have htriples : (ofOperations operations).triples.Perm (ofOperations others).triples := by
    decide +kernel
  have hadj : ∀ source target, (source, target, EdgeType.reads) ∈ (ofOperations operations).triples →
      (ofOperations operations).Adj source target := fun source target hmem => by
    obtain ⟨e, he, hsource, htarget, -⟩ := mem_triples_iff.1 hmem
    exact ⟨e, he, hsource, htarget⟩
  refine ⟨hsame others (fun _ => hids.mem_iff) fun _ => htriples.mem_iff, ?_, ?_⟩
  · have hcycle : Relation.TransGen (ofOperations operations).Adj "c" "c" :=
      .tail (.single (hadj "c" "b" (by decide +kernel))) (hadj "b" "c" (by decide +kernel))
    exact (hremaining _).2 ⟨"c", hcycle, .single (hadj "c" "d" (by decide +kernel))⟩
  · obtain ⟨e, he, hsource, htarget⟩ := hadj "e" "a" (by decide +kernel)
    have hlt := hbefore e he (by rw [hsource]; decide +kernel) (by rw [htarget]; decide +kernel)
    rwa [hsource, htarget] at hlt

end Graph

end CampaignRules
