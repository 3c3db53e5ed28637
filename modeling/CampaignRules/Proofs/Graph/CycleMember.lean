import Mathlib.Data.List.Perm.Basic
import CampaignRules.Proofs.Graph.Component

/-! The members of cycles are the nodes with a walk along at least one edge back to themselves. Such a
walk stays in the component of its node, so the component has another member or the walk is an edge
from the node to itself. -/

namespace CampaignRules.Graph

variable {g : Graph} {id : Bytes}

theorem hasEdge_self_iff : g.hasEdge id id none = true ↔ g.Adj id id := by
  simp [hasEdge_iff, Adj]

theorem mem_cyclicPart_iff (hg : g.WellFormed) {c : List Bytes} (hc : c ∈ g.components)
    (hid : id ∈ c) : id ∈ g.cyclicPart c ↔ Relation.TransGen g.Adj id id := by
  obtain ⟨hnodup, hclass⟩ := mem_component_iff hg hc
  rw [cyclicPart]
  split
  · rename_i hlong
    refine ⟨fun _ => ?_, fun _ => hid⟩
    have hmore : c ≠ [id] := fun heq => by simp [heq] at hlong
    obtain ⟨other, hother, hne⟩ :=
      ((hnodup.ne_singleton_iff id).1 hmore).resolve_left (List.ne_nil_of_mem hid)
    obtain ⟨hto, hfrom⟩ := (hclass id hid other).1 hother
    obtain heq | hstep := Relation.reflTransGen_iff_eq_or_transGen.1 hto
    · exact absurd heq hne
    · exact hstep.trans_left hfrom
  · rename_i hshort
    rw [List.mem_filter, hasEdge_self_iff]
    refine ⟨fun h => .single h.2, fun hcycle => ⟨hid, ?_⟩⟩
    obtain ⟨next, hadj, hback⟩ := Relation.TransGen.head'_iff.1 hcycle
    have hnext : next ∈ c := (hclass id hid next).2 ⟨.single hadj, hback⟩
    have hone : c.length = 1 := by
      have hpos := List.length_pos_of_mem hid
      omega
    obtain ⟨only, rfl⟩ := List.length_eq_one_iff.1 hone
    rw [List.mem_singleton] at hid hnext
    rwa [hnext, ← hid] at hadj

theorem mem_cycleMembers_iff (hg : g.WellFormed) :
    id ∈ g.cycleMembers ↔ Relation.TransGen g.Adj id id := by
  rw [cycleMembers, Bytes.mem_sortedSet, List.mem_flatMap]
  constructor
  · rintro ⟨c, hc, hpart⟩
    have hid : id ∈ c := by
      rw [cyclicPart] at hpart
      split at hpart
      · exact hpart
      · exact (List.mem_filter.1 hpart).1
    exact (mem_cyclicPart_iff hg hc hid).1 hpart
  · intro hcycle
    obtain ⟨next, hadj, -⟩ := Relation.TransGen.head'_iff.1 hcycle
    obtain ⟨c, hc, hid⟩ := exists_component hg (hg.adj_mem hadj).1
    exact ⟨c, hc, (mem_cyclicPart_iff hg hc hid).2 hcycle⟩

@[simp] theorem ids_markCycles : g.markCycles.ids = g.ids := by
  simp [markCycles, countAndMark, ids, Function.comp_def]

@[simp] theorem edges_markCycles : g.markCycles.edges = g.edges := rfl

theorem inCycle_markCycles (hg : g.WellFormed) {n : Node} (hn : n ∈ g.markCycles.nodes) :
    n.inCycle = true ↔ Relation.TransGen g.Adj n.id n.id := by
  rw [markCycles, countAndMark, List.mem_map] at hn
  obtain ⟨old, -, rfl⟩ := hn
  rw [← mem_cycleMembers_iff hg]
  exact List.contains_iff_mem

theorem length_cycleMembers (hg : g.WellFormed) :
    g.cycleMembers.length = g.markCycles.nodes.countP (·.inCycle) := by
  have hperm : g.cycleMembers.Perm (g.ids.filter g.cycleMembers.contains) := by
    refine (List.perm_ext_iff_of_nodup (Bytes.sortedSet_nodup _) (hg.ids_nodup.filter _)).2 ?_
    intro id
    rw [List.mem_filter, List.contains_iff_mem]
    refine ⟨fun hid => ⟨?_, hid⟩, And.right⟩
    obtain ⟨next, hadj, -⟩ := Relation.TransGen.head'_iff.1 ((mem_cycleMembers_iff hg).1 hid)
    exact (hg.adj_mem hadj).1
  rw [hperm.length_eq, ids, List.filter_map, List.length_map, ← List.countP_eq_length_filter,
    markCycles, countAndMark, List.countP_map]
  rfl

/-- In every graph that operations make, the members of cycles are the nodes with a walk back to
themselves; marking a graph changes nothing but the marks, which then say so of every node, and
tells their number. -/
theorem cycles_exact_of_operations (operations : List Operation) :
    let g := ofOperations operations
    (∀ id, id ∈ g.cycleMembers ↔ Relation.TransGen g.Adj id id) ∧
      g.countAndMark.2.ids = g.ids ∧ g.countAndMark.2.edges = g.edges ∧
      (∀ n ∈ g.countAndMark.2.nodes, n.inCycle = true ↔ Relation.TransGen g.Adj n.id n.id) ∧
      g.countAndMark.1 = g.countAndMark.2.nodes.countP (·.inCycle) := by
  have hg := WellFormed.ofOperations operations
  exact ⟨fun id => mem_cycleMembers_iff hg, ids_markCycles, edges_markCycles,
    fun n hn => inCycle_markCycles hg hn, length_cycleMembers hg⟩

end CampaignRules.Graph
