import Mathlib.Data.List.Chain
import CampaignRules.Graph.Cycles
import CampaignRules.Proofs.Graph.CycleMember
import CampaignRules.Proofs.Graph.Order

/-! The cycles that the depth-first search reports are cycles of the graph, and it reports one if there
is one. The grey nodes are the path along which the search has come, innermost node first, and each
node of the path is the parent of the one above it; so the chain of parents from the innermost node is
the path down to any grey node, and the edge back to that one closes it. As long as no such edge was
found, a black node leads to black nodes only and lies on no cycle. -/

namespace CampaignRules.Graph

/-- A path along edges that ends where it begins and has no other node twice. -/
structure IsCycle (g : Graph) (path : List Bytes) : Prop where
  closed : ∃ first middle, path = first :: (middle ++ [first]) ∧ (first :: middle).Nodup
  edges : path.IsChain g.Adj

theorem IsCycle.transGen {g : Graph} {path : List Bytes} (hcycle : IsCycle g path) {id : Bytes}
    (hid : id ∈ path) : Relation.TransGen g.Adj id id := by
  obtain ⟨first, middle, rfl, -⟩ := hcycle.closed
  have hwalks : (first :: (middle ++ [first])).Pairwise (Relation.TransGen g.Adj) :=
    List.isChain_iff_pairwise.1 (hcycle.edges.imp fun _ _ hadj => .single hadj)
  rw [List.pairwise_cons, List.pairwise_append] at hwalks
  obtain ⟨hfirst, -, -, hlast⟩ := hwalks
  have hlap : Relation.TransGen g.Adj first first := hfirst first (by simp)
  rcases List.mem_cons.1 hid with rfl | hid
  · exact hlap
  · rcases List.mem_append.1 hid with hid | hid
    · exact (hlast id hid first (List.mem_singleton_self first)).trans
        (hfirst id (List.mem_append_left _ hid))
    · rwa [List.mem_singleton.1 hid]

namespace Search

/-- What holds of a search while it is under way along a path, innermost node first. -/
structure Sound (g : Graph) (path : List Bytes) (s : Search) : Prop where
  grey : ∀ x, s.color x = .grey ↔ x ∈ path
  nodup : path.Nodup
  mem_ids : ∀ x ∈ path, x ∈ g.ids
  linked : path.IsChain fun x y => s.parent x = some y ∧ g.Adj y x
  real : ∀ cycle ∈ s.cycles, IsCycle g cycle
  clear : s.cycles = [] → ∀ x, s.color x = .black →
    (∀ y, g.Adj x y → s.color y = .black) ∧ ¬Relation.TransGen g.Adj x x

/-- How a search goes on: what was entered keeps its color and its parent. -/
structure Grows (s s' : Search) : Prop where
  color : ∀ x, s.color x ≠ .white → s'.color x = s.color x
  parent : ∀ x, s.color x ≠ .white → s'.parent x = s.parent x
  cycles : s.cycles <+: s'.cycles

/-- The nodes that were not entered yet. -/
def pending (g : Graph) (s : Search) : List Bytes :=
  g.ids.filter fun id => s.color id = .white

/-- What exploring a node comes to. -/
structure Explored (g : Graph) (path : List Bytes) (id : Bytes) (s s' : Search) : Prop where
  sound : Sound g path s'
  grows : Grows s s'
  black : s'.color id = .black

/-- What following edges to targets comes to. -/
structure Followed (g : Graph) (path targets : List Bytes) (s s' : Search) : Prop where
  sound : Sound g path s'
  grows : Grows s s'
  black : s'.cycles = [] → ∀ t ∈ targets, s'.color t = .black

variable {g : Graph} {path rest : List Bytes} {id target : Bytes} {s s' s'' : Search} {limit : Nat}

theorem Grows.refl (s : Search) : Grows s s :=
  ⟨fun _ _ => rfl, fun _ _ => rfl, List.prefix_refl _⟩

theorem Grows.trans (h : Grows s s') (h' : Grows s' s'') : Grows s s'' where
  color x hx := (h'.color x (by rwa [h.color x hx])).trans (h.color x hx)
  parent x hx := (h'.parent x (by rwa [h.color x hx])).trans (h.parent x hx)
  cycles := h.cycles.trans h'.cycles

theorem Grows.black (h : Grows s s') {x : Bytes} (hx : s.color x = .black) : s'.color x = .black := by
  rw [h.color x (by simp [hx]), hx]

theorem Grows.white (h : Grows s s') {x : Bytes} (hx : s'.color x = .white) : s.color x = .white := by
  by_contra hne
  exact hne (by rw [← h.color x hne, hx])

theorem Grows.cycles_eq_nil (h : Grows s s') (hnil : s'.cycles = []) : s.cycles = [] :=
  List.prefix_nil.1 (hnil ▸ h.cycles)

theorem length_pending_le (h : Grows s s') : (pending g s').length ≤ (pending g s).length := by
  refine List.Sublist.length_le (List.monotone_filter_right g.ids fun x hx => ?_)
  simp only [decide_eq_true_eq] at hx ⊢
  exact h.white hx

theorem Sound.length_le (hs : Sound g path s) : path.length ≤ g.nodes.length := by
  simpa [ids] using (List.subperm_of_subset hs.nodup hs.mem_ids).length_le

theorem color_paint (s : Search) (id : Bytes) (color : Color) (x : Bytes) :
    (s.paint id color).color x = if x = id then color else s.color x := rfl

theorem color_paint_ne {x : Bytes} (hx : x ≠ id) (color : Color) :
    (s.paint id color).color x = s.color x :=
  if_neg hx

theorem Sound.enter (hs : Sound g path s) (hwhite : s.color id = .white) (hid : id ∈ g.ids)
    (hparent : ∀ y ∈ path.head?, s.parent id = some y ∧ g.Adj y id) :
    Sound g (id :: path) (s.paint id .grey) := by
  have hnew : id ∉ path := fun hmem => by
    rw [← hs.grey, hwhite] at hmem
    cases hmem
  refine ⟨fun x => ?_, List.nodup_cons.2 ⟨hnew, hs.nodup⟩, ?_, hs.linked.cons hparent, hs.real, ?_⟩
  · rw [color_paint, List.mem_cons, ← hs.grey]
    split <;> simp [*]
  · exact List.forall_mem_cons.2 ⟨hid, hs.mem_ids⟩
  · intro hnil x hx
    have hne : x ≠ id := by
      rintro rfl
      rw [color_paint, if_pos rfl] at hx
      cases hx
    rw [color_paint_ne hne] at hx
    obtain ⟨hblack, hfree⟩ := hs.clear hnil x hx
    refine ⟨fun y hadj => ?_, hfree⟩
    have hy := hblack y hadj
    rwa [color_paint_ne (by rintro rfl; rw [hwhite] at hy; cases hy)]

theorem grows_paint (hwhite : s.color id = .white) (color : Color) : Grows s (s.paint id color) where
  color x hx := color_paint_ne (by rintro rfl; exact hx hwhite) color
  parent _ _ := rfl
  cycles := List.prefix_refl _

theorem length_pending_enter_lt (hwhite : s.color id = .white) (hid : id ∈ g.ids) :
    (pending g (s.paint id .grey)).length < (pending g s).length := by
  have hmem : id ∈ pending g s := List.mem_filter.2 ⟨hid, decide_eq_true hwhite⟩
  have hpending : pending g (s.paint id .grey) = (pending g s).filter (· ≠ id) := by
    rw [pending, pending, List.filter_filter]
    refine List.filter_congr fun x _ => ?_
    by_cases hx : x = id <;> simp [color_paint, hx]
  rw [hpending]
  exact List.length_filter_lt_length_iff_exists.2 ⟨id, hmem, by simp⟩

theorem Sound.adopt (hs : Sound g path s) (hwhite : s.color target = .white) (id : Bytes) :
    Sound g path (s.adopt target id) := by
  refine ⟨hs.grey, hs.nodup, hs.mem_ids, hs.linked.imp_of_mem_imp fun x y hx _ hxy => ?_, hs.real,
    hs.clear⟩
  have hne : x ≠ target := by
    rintro rfl
    rw [← hs.grey, hwhite] at hx
    cases hx
  exact ⟨(if_neg hne).trans hxy.1, hxy.2⟩

theorem grows_adopt (hwhite : s.color target = .white) (id : Bytes) : Grows s (s.adopt target id) where
  color _ _ := rfl
  parent x hx := if_neg (by rintro rfl; exact hx hwhite)
  cycles := List.prefix_refl _

/-- The chain of parents is the path, down to where it stops. -/
theorem ancestry_eq {parent : Bytes → Option Bytes} {above : List Bytes} (hstop : target ∉ above)
    (hlinked : (above ++ [target]).IsChain fun x y => parent x = some y) {fuel : Nat}
    (hfuel : above.length ≤ fuel) :
    ancestry parent target fuel (above ++ [target]).head? = above := by
  induction above generalizing fuel with
  | nil => cases fuel <;> simp [ancestry]
  | cons x above ih =>
      cases fuel with
      | zero => cases hfuel
      | succ fuel =>
          rw [List.mem_cons, not_or] at hstop
          rw [List.cons_append, List.isChain_cons] at hlinked
          have hparent : parent x = (above ++ [target]).head? := by
            cases hhead : (above ++ [target]).head? with
            | none => simp at hhead
            | some y => exact hlinked.1 y hhead
          rw [List.cons_append, List.head?_cons, ancestry, if_neg (Ne.symm hstop.1), hparent,
            ih hstop.2 hlinked.2 (Nat.le_of_succ_le_succ hfuel)]

/-- An edge back from the innermost node to a node of the path closes a cycle. -/
theorem isCycle_closing (hs : Sound g (id :: rest) s) (htarget : target ∈ id :: rest)
    (hadj : g.Adj id target) (hlimit : (id :: rest).length ≤ limit) :
    IsCycle g (s.closing limit id target) := by
  obtain ⟨above, below, hpath⟩ := List.append_of_mem htarget
  have hnodup := hs.nodup
  have hlinked := hs.linked
  have hlength : above.length ≤ limit := by
    rw [hpath, List.length_append] at hlimit
    omega
  rw [hpath, List.append_cons] at hnodup hlinked
  have hhead : (above ++ [target]).head? = some id := by
    have h := congrArg List.head? hpath
    rw [List.head?_cons] at h
    cases above <;> simpa using h.symm
  have hlinked : (above ++ [target]).IsChain fun x y => s.parent x = some y ∧ g.Adj y x :=
    hlinked.left_of_append
  have hnodup : (above ++ [target]).Nodup := (List.nodup_append.1 hnodup).1
  have hstop : target ∉ above := fun hmem =>
    (List.nodup_append.1 hnodup).2.2 target hmem target (List.mem_singleton_self target) rfl
  have hclosing : s.closing limit id target = (above ++ [target]).reverse ++ [target] := by
    rw [closing, ← hhead, ancestry_eq hstop (hlinked.imp fun _ _ h => h.1) hlength]
  rw [hclosing]
  constructor
  · exact ⟨target, above.reverse, by simp, by simpa [hstop] using (List.nodup_append.1 hnodup).1⟩
  · refine List.isChain_append.2 ⟨?_, List.isChain_singleton target, ?_⟩
    · exact List.isChain_reverse.2 (hlinked.imp fun _ _ h => h.2)
    · rw [List.getLast?_reverse, hhead]
      rintro x ⟨⟩ y ⟨⟩
      exact hadj

theorem Sound.close (hs : Sound g (id :: rest) s) (htarget : target ∈ id :: rest)
    (hadj : g.Adj id target) :
    Sound g (id :: rest) (s.close g.nodes.length id target) := by
  refine ⟨hs.grey, hs.nodup, hs.mem_ids, hs.linked, fun cycle hmem => ?_, fun hnil => ?_⟩
  · rcases List.mem_append.1 hmem with hmem | hmem
    · exact hs.real cycle hmem
    · rw [List.mem_singleton.1 hmem]
      exact isCycle_closing hs htarget hadj hs.length_le
  · exact absurd hnil (by simp [Search.close])

theorem grows_close (s : Search) (limit : Nat) (id target : Bytes) :
    Grows s (s.close limit id target) :=
  ⟨fun _ _ => rfl, fun _ _ => rfl, List.prefix_append _ _⟩

theorem black_of_reaches (hs : Sound g path s) (hnil : s.cycles = []) {x y : Bytes}
    (hx : s.color x = .black) (hreach : g.Reaches x y) : s.color y = .black := by
  induction hreach with
  | refl => exact hx
  | tail _ hadj ih => exact (hs.clear hnil _ ih).1 _ hadj

theorem Sound.leave (hs : Sound g (id :: path) s)
    (htargets : s.cycles = [] → ∀ y, g.Adj id y → s.color y = .black) :
    Sound g path (s.paint id .black) := by
  obtain ⟨hnew, hnodup⟩ := List.nodup_cons.1 hs.nodup
  have hgrey : s.color id = .grey := (hs.grey id).2 List.mem_cons_self
  have hblack : ∀ x, s.color x = .black → (s.paint id .black).color x = .black := fun x hx => by
    rw [color_paint]
    split
    · rfl
    · exact hx
  refine ⟨fun x => ?_, hnodup, fun x hx => hs.mem_ids x (List.mem_cons_of_mem _ hx),
    (List.isChain_cons.1 hs.linked).2, hs.real, fun hnil x hx => ?_⟩
  · by_cases hx : x = id
    · simp [color_paint, hx, hnew]
    · rw [color_paint_ne hx, hs.grey, List.mem_cons, or_iff_right hx]
  · by_cases hne : x = id
    · subst hne
      refine ⟨fun y hadj => hblack y (htargets hnil y hadj), fun hcycle => ?_⟩
      obtain ⟨y, hadj, hback⟩ := Relation.TransGen.head'_iff.1 hcycle
      have hx := black_of_reaches hs hnil (htargets hnil y hadj) hback
      rw [hgrey] at hx
      cases hx
    · rw [color_paint_ne hne] at hx
      obtain ⟨hleads, hfree⟩ := hs.clear hnil x hx
      exact ⟨fun y hadj => hblack y (hleads y hadj), hfree⟩

/-! ### The whole search -/

/-- Following edges is sound if exploring is for all nodes that were not entered yet. -/
theorem followed_follow {explore : Bytes → Search → Search} {fuel : Nat}
    (hexplore : ∀ t s, Sound g (id :: rest) s → s.color t = .white → g.Adj id t →
      s.parent t = some id → (pending g s).length ≤ fuel → Explored g (id :: rest) t s (explore t s)) :
    ∀ (targets : List Bytes) (s : Search), Sound g (id :: rest) s → (∀ t ∈ targets, g.Adj id t) →
      (pending g s).length ≤ fuel →
      Followed g (id :: rest) targets s (follow explore g.nodes.length id targets s) := by
  intro targets
  induction targets with
  | nil => exact fun s hs _ _ => ⟨hs, .refl s, by simp⟩
  | cons t targets ih =>
      intro s hs hadj hfuel
      rw [List.forall_mem_cons] at hadj
      cases hcolor : s.color t with
      | white =>
          have hadopt := grows_adopt hcolor id
          have hfirst := hexplore t (s.adopt t id) (hs.adopt hcolor id) hcolor hadj.1 (if_pos rfl)
            ((length_pending_le hadopt).trans hfuel)
          have hgrows := hadopt.trans hfirst.grows
          have h := ih _ hfirst.sound hadj.2 ((length_pending_le hgrows).trans hfuel)
          simp only [follow, hcolor]
          exact ⟨h.sound, hgrows.trans h.grows, fun hnil =>
            List.forall_mem_cons.2 ⟨h.grows.black hfirst.black, h.black hnil⟩⟩
      | grey =>
          have hgrows := grows_close s g.nodes.length id t
          have h := ih _ (hs.close ((hs.grey t).1 hcolor) hadj.1) hadj.2
            ((length_pending_le hgrows).trans hfuel)
          simp only [follow, hcolor]
          refine ⟨h.sound, hgrows.trans h.grows, fun hnil => ?_⟩
          exact absurd (h.grows.cycles_eq_nil hnil) (by simp [Search.close])
      | black =>
          have h := ih s hs hadj.2 hfuel
          simp only [follow, hcolor]
          exact ⟨h.sound, h.grows, fun hnil =>
            List.forall_mem_cons.2 ⟨h.grows.black hcolor, h.black hnil⟩⟩

/-- Exploring a node is sound as long as the fuel lasts for the nodes not entered yet. -/
theorem explored_explore (hg : g.WellFormed) : ∀ (fuel : Nat) (path : List Bytes) (id : Bytes)
    (s : Search), Sound g path s → s.color id = .white → id ∈ g.ids →
      (∀ y ∈ path.head?, s.parent id = some y ∧ g.Adj y id) → (pending g s).length ≤ fuel →
      Explored g path id s (explore g fuel id s) := by
  intro fuel
  induction fuel with
  | zero =>
      intro path id s _ hwhite hid _ hfuel
      have hlt := length_pending_enter_lt hwhite hid
      omega
  | succ fuel ih =>
      intro path id s hs hwhite hid hparent hfuel
      have hlt := length_pending_enter_lt hwhite hid
      have hentered := hs.enter hwhite hid hparent
      have hfollow := followed_follow (fun t s' hs' ht hadj hlink hle => ih (id :: path) t s' hs' ht
        (hg.adj_mem hadj).2 (by rintro y ⟨⟩; exact ⟨hlink, hadj⟩) hle) (g.targets id)
        (s.paint id .grey) hentered (fun t ht => mem_targets.1 ht) (by omega)
      rw [explore]
      generalize follow (explore g fuel) g.nodes.length id (g.targets id) (s.paint id .grey) = s'
        at hfollow
      refine ⟨hfollow.sound.leave fun hnil y hadj => hfollow.black hnil y (mem_targets.2 hadj), ?_,
        if_pos rfl⟩
      have hgrows := (grows_paint hwhite .grey).trans hfollow.grows
      exact ⟨fun x hx => (color_paint_ne (by rintro rfl; exact hx hwhite) _).trans (hgrows.color x hx),
        hgrows.parent, hgrows.cycles⟩

theorem sound_start : Sound g [] start := by
  constructor <;> simp [start]

theorem explored_search (hg : g.WellFormed) (hs : Sound g [] s) (hid : id ∈ g.ids) :
    Explored g [] id s (search g s id) := by
  rw [search]
  split
  · rename_i hwhite
    refine explored_explore hg _ [] id s hs hwhite hid (by simp) ?_
    simpa [pending, ids] using List.length_filter_le (fun id => decide (s.color id = .white)) g.ids
  · rename_i hwhite
    refine ⟨hs, .refl s, ?_⟩
    cases hcolor : s.color id with
    | white => exact absurd hcolor hwhite
    | grey => exact absurd ((hs.grey id).1 hcolor) List.not_mem_nil
    | black => rfl

theorem explored_foldl_search (hg : g.WellFormed) : ∀ (ids : List Bytes) (s : Search), Sound g [] s →
    (∀ id ∈ ids, id ∈ g.ids) → Sound g [] (ids.foldl (search g) s) ∧
      Grows s (ids.foldl (search g) s) ∧ ∀ id ∈ ids, (ids.foldl (search g) s).color id = .black := by
  intro ids
  induction ids with
  | nil => exact fun s hs _ => ⟨hs, .refl s, by simp⟩
  | cons id rest ih =>
      intro s hs hids
      rw [List.forall_mem_cons] at hids
      have hfirst := explored_search hg hs hids.1
      obtain ⟨hsound, hgrows, hblack⟩ := ih _ hfirst.sound hids.2
      exact ⟨hsound, hfirst.grows.trans hgrows,
        List.forall_mem_cons.2 ⟨hgrows.black hfirst.black, hblack⟩⟩

end Search

variable {g : Graph}

theorem isCycle_of_mem_cycles (hg : g.WellFormed) {cycle : List Bytes} (hmem : cycle ∈ g.cycles) :
    IsCycle g cycle :=
  (Search.explored_foldl_search hg g.ids _ Search.sound_start fun _ h => h).1.real cycle hmem

/-- A cycle is reported if there is one. -/
theorem hasCycles_iff (hg : g.WellFormed) :
    hasCycles g.cycles = true ↔ ∃ c, Relation.TransGen g.Adj c c := by
  rw [hasCycles, Bool.not_eq_true', List.isEmpty_eq_false_iff_exists_mem]
  constructor
  · rintro ⟨cycle, hmem⟩
    have hcycle := isCycle_of_mem_cycles hg hmem
    obtain ⟨first, middle, rfl, -⟩ := hcycle.closed
    exact ⟨first, hcycle.transGen List.mem_cons_self⟩
  · rintro ⟨c, hcycle⟩
    obtain ⟨hsound, -, hblack⟩ :=
      Search.explored_foldl_search hg g.ids _ Search.sound_start fun _ h => h
    obtain ⟨y, hadj, -⟩ := Relation.TransGen.head'_iff.1 hcycle
    by_contra hnone
    have hnil : g.cycles = [] := List.eq_nil_iff_forall_not_mem.2 fun cycle hmem => hnone ⟨cycle, hmem⟩
    exact (hsound.clear hnil c (hblack c (hg.adj_mem hadj).1)).2 hcycle

/-- In every graph that operations make, a search reports a cycle if and only if there are nodes on
cycles, and if and only if no order of all nodes is found; and whatever it reports is a cycle of the
graph, all nodes of which are among the nodes on cycles. -/
theorem detectors_agree (operations : List Operation) :
    let g := ofOperations operations
    ((hasCycles g.cycles = true ↔ g.cycleMembers ≠ []) ∧
      (g.cycleMembers ≠ [] ↔ g.topologicalOrder.isComplete = false)) ∧
      ∀ path ∈ g.cycles, IsCycle g path ∧ ∀ id ∈ path, id ∈ g.cycleMembers := by
  have hg := WellFormed.ofOperations operations
  have hmembers : (ofOperations operations).cycleMembers ≠ [] ↔
      ∃ c, Relation.TransGen (ofOperations operations).Adj c c := by
    rw [Ne, List.eq_nil_iff_forall_not_mem, not_forall_not]
    exact exists_congr fun id => mem_cycleMembers_iff hg
  refine ⟨⟨(hasCycles_iff hg).trans hmembers.symm, hmembers.trans (isComplete_eq_false_iff hg).symm⟩, ?_⟩
  intro path hpath
  have hcycle := isCycle_of_mem_cycles hg hpath
  exact ⟨hcycle, fun id hid => (mem_cycleMembers_iff hg).2 (hcycle.transGen hid)⟩

/-- A loop behind an edge that leads into it: the search reports it from the node where it was
entered. -/
theorem detectors_agree_loop :
    let node := fun id : Bytes => Operation.addNode ⟨id, .variable, [], [], .null, false⟩
    let edge := fun source target : Bytes => Operation.addEdge ⟨source, target, .reads, .null⟩
    let operations := [node "a", node "b", node "c", edge "a" "b", edge "b" "c", edge "c" "b"]
    let g := ofOperations operations
    let path : List Bytes := ["b", "c", "b"]
    path ∈ g.cycles ∧ IsCycle g path ∧ (∀ id ∈ path, id ∈ g.cycleMembers) ∧
      g.topologicalOrder.isComplete = false := by
  intro node edge operations g path
  obtain ⟨⟨hmembers, hcomplete⟩, hreal⟩ := detectors_agree operations
  have hpath : path ∈ g.cycles := by decide +kernel
  have hfound : hasCycles g.cycles = true := by decide +kernel
  exact ⟨hpath, (hreal path hpath).1, (hreal path hpath).2, hcomplete.1 (hmembers.1 hfound)⟩

end CampaignRules.Graph
