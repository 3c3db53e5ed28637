import Mathlib.Data.List.Nodup
import Mathlib.Data.List.Perm.Subperm
import Mathlib.Logic.Relation
import CampaignRules.Graph.Reach
import CampaignRules.Proofs.Graph.Component

/-! A breadth-first search finds exactly the nodes with a walk from an origin that is not longer than the
bound, nearer ones first. The nodes that were followed and those in the queue, taken together, stand in
the order of their depths, and no depth exceeds that of the front of the queue by more than one; so new
nodes belong at the end. Each depth is the length of a walk, and a node that was followed within the
bound has its neighbours no deeper than one below it. When the queue is empty, a walk can therefore be
followed from its origin on with depths that never exceed its length. -/

namespace CampaignRules.Graph

/-- A walk along so many steps. -/
inductive Walk (step : Bytes → Bytes → Prop) : Nat → Bytes → Bytes → Prop where
  | nil (x : Bytes) : Walk step 0 x x
  | concat {n : Nat} {x y z : Bytes} (hwalk : Walk step n x y) (hstep : step y z) :
      Walk step (n + 1) x z

namespace Walk

variable {step : Bytes → Bytes → Prop} {n : Nat} {x y z : Bytes}

theorem cons (hstep : step x y) (hwalk : Walk step n y z) : Walk step (n + 1) x z := by
  induction hwalk with
  | nil => exact .concat (.nil x) hstep
  | concat _ hlast ih => exact .concat (ih hstep) hlast

theorem backward (hwalk : Walk step n x y) : Walk (fun a b => step b a) n y x := by
  induction hwalk with
  | nil x => exact .nil x
  | concat _ hlast ih => exact .cons hlast ih

theorem exists_iff_reflTransGen : (∃ n, Walk step n x y) ↔ Relation.ReflTransGen step x y := by
  constructor
  · rintro ⟨n, hwalk⟩
    induction hwalk with
    | nil => exact .refl
    | concat _ hlast ih => exact ih.tail hlast
  · intro hreach
    induction hreach with
    | refl => exact ⟨0, .nil x⟩
    | tail _ hlast ih =>
        obtain ⟨n, hwalk⟩ := ih
        exact ⟨n + 1, hwalk.concat hlast⟩

end Walk

/-- Some walk from the one node to the other is not longer than the bound. -/
def Within (step : Bytes → Bytes → Prop) (bound : Option Nat) (x y : Bytes) : Prop :=
  ∃ n, (∀ k ∈ bound, n ≤ k) ∧ Walk step n x y

theorem within_none_iff {step : Bytes → Bytes → Prop} {x y : Bytes} :
    Within step none x y ↔ Relation.ReflTransGen step x y := by
  simp only [Within, Option.not_mem_none, IsEmpty.forall_iff, implies_true, true_and,
    Walk.exists_iff_reflTransGen]

/-- One step of a search leads from one node to the other. -/
def Leads (g : Graph) (direction : Direction) (x y : Bytes) : Prop :=
  y ∈ g.next direction x

variable {g : Graph} {direction : Direction} {bound : Option Nat} {x y : Bytes}

theorem leads_forward : g.Leads .forward x y ↔ g.Adj x y :=
  mem_targets

theorem leads_backward : g.Leads .backward x y ↔ g.Adj y x := by
  simp only [Leads, next, sources, incoming, List.mem_map, List.mem_filter, decide_eq_true_eq, Adj,
    and_assoc, and_comm]

theorem WellFormed.leads_mem (hg : g.WellFormed) (hleads : g.Leads direction x y) : y ∈ g.ids := by
  cases direction with
  | forward => exact (hg.adj_mem (leads_forward.1 hleads)).2
  | backward => exact (hg.adj_mem (leads_backward.1 hleads)).1

theorem within_forward_iff : Within (g.Leads .forward) bound x y ↔ Within g.Adj bound x y := by
  have hstep : g.Leads .forward = g.Adj := by
    funext a b
    exact propext leads_forward
  rw [hstep]

theorem within_backward_iff : Within (g.Leads .backward) bound x y ↔ Within g.Adj bound y x := by
  have hstep : g.Leads .backward = fun a b => g.Adj b a := by
    funext a b
    exact propext leads_backward
  rw [hstep]
  exact exists_congr fun n => and_congr_right fun _ => ⟨Walk.backward, Walk.backward⟩

namespace Spread

variable {s : Spread} {id : Bytes} {depth : Nat} {rest done : List (Bytes × Nat)}
  {origins : List Bytes}

/-- Where a fold marks the allowed ids that were not marked yet, it marks each of them once. -/
theorem exists_foldl_eq (mark push : Spread → Bytes → Spread) (allowed : Bytes → Prop)
    (hpush : ∀ s x, (push s x).visited = s.visited ++ [x])
    (hmark : ∀ s x, allowed x → x ∉ s.visited → mark s x = push s x)
    (hskip : ∀ s x, ¬(allowed x ∧ x ∉ s.visited) → mark s x = s) (ids : List Bytes) (s : Spread) :
    ∃ new : List Bytes, ids.foldl mark s = new.foldl push s ∧ new.Nodup ∧
      ∀ x, x ∈ new ↔ (x ∈ ids ∧ allowed x) ∧ x ∉ s.visited := by
  induction ids generalizing s with
  | nil => exact ⟨[], rfl, .nil, by simp⟩
  | cons id ids ih =>
      by_cases hid : allowed id ∧ id ∉ s.visited
      · obtain ⟨new, heq, hnodup, hmem⟩ := ih (push s id)
        rw [hpush] at hmem
        refine ⟨id :: new, ?_, List.nodup_cons.2 ⟨fun h => ?_, hnodup⟩, fun x => ?_⟩
        · rw [List.foldl_cons, hmark s id hid.1 hid.2, heq, List.foldl_cons]
        · exact ((hmem id).1 h).2 (List.mem_append_right _ List.mem_cons_self)
        · by_cases hx : x = id
          · simp [hx, hid]
          · simp [hmem, hx]
      · obtain ⟨new, heq, hnodup, hmem⟩ := ih s
        refine ⟨new, by rw [List.foldl_cons, hskip s id hid, heq], hnodup, fun x => ?_⟩
        rw [hmem, List.mem_cons]
        refine ⟨fun h => ⟨⟨.inr h.1.1, h.1.2⟩, h.2⟩, fun h => ⟨⟨h.1.1.resolve_left ?_, h.1.2⟩, h.2⟩⟩
        rintro rfl
        exact hid ⟨h.1.2, h.2⟩

theorem foldl_find (depth : Nat) (new : List Bytes) (s : Spread) : new.foldl (find depth) s =
    ⟨s.queue ++ new.map (·, depth), s.visited ++ new, s.found ++ new⟩ := by
  induction new generalizing s with
  | nil => simp
  | cons x new ih => simp [ih, find, enter]

theorem foldl_enter (depth : Nat) (new : List Bytes) (s : Spread) : new.foldl (enter depth) s =
    ⟨s.queue ++ new.map (·, depth), s.visited ++ new, s.found⟩ := by
  induction new generalizing s with
  | nil => simp
  | cons x new ih => simp [ih, enter]

/-- What a turn finds: the neighbours that were not visited yet, if the node is within the bound. -/
theorem exists_follow_eq (direction : Direction) (g : Graph) (bound : Option Nat) (id : Bytes)
    (depth : Nat) (rest : List (Bytes × Nat)) (s : Spread) :
    ∃ new : List Bytes, s.follow direction g bound id depth rest =
        ⟨rest ++ new.map (·, depth + 1), s.visited ++ new, s.found ++ new⟩ ∧
      new.Nodup ∧
      ∀ x, x ∈ new ↔ (∀ k ∈ bound, depth < k) ∧ g.Leads direction id x ∧ x ∉ s.visited := by
  have hwithin : bound.any (· ≤ depth) = false ↔ ∀ k ∈ bound, depth < k := by
    cases bound <;> simp
  rw [follow]
  split
  · rename_i hcut
    refine ⟨[], by simp, .nil, fun x => ⟨fun h => absurd h List.not_mem_nil, fun h => ?_⟩⟩
    rw [hwithin.2 h.1] at hcut
    cases hcut
  · rename_i hcut
    obtain ⟨new, heq, hnodup, hmem⟩ := exists_foldl_eq (discover (depth + 1)) (find (depth + 1))
      (fun _ => True) (fun _ _ => rfl)
      (fun s x _ hx => if_neg (mt List.contains_iff_mem.1 hx))
      (fun s x hx => if_pos (List.contains_iff_mem.2 (by simpa using hx)))
      (g.next direction id) { s with queue := rest }
    refine ⟨new, by rw [heq, foldl_find], hnodup, fun x => (hmem x).trans ?_⟩
    exact ⟨fun h => ⟨hwithin.1 (by simpa using hcut), h.1.1, h.2⟩, fun h => ⟨⟨h.2.1, trivial⟩, h.2.2⟩⟩

/-- What holds of a search at the start of each turn, when the given nodes were followed already. -/
structure Sound (g : Graph) (direction : Direction) (bound : Option Nat) (origins : List Bytes)
    (done : List (Bytes × Nat)) (s : Spread) : Prop where
  visited_eq : s.visited = (done ++ s.queue).map (·.1)
  visited_split : s.visited = origins ++ s.found
  visited_nodup : s.visited.Nodup
  visited_ids : ∀ x ∈ s.visited, x ∈ g.ids
  depths_sorted : (done ++ s.queue).Pairwise fun e e' => e.2 ≤ e'.2
  depth_le : ∀ e ∈ s.queue, ∀ e' ∈ done ++ s.queue, e'.2 ≤ e.2 + 1
  walked : ∀ e ∈ done ++ s.queue,
    (∀ k ∈ bound, e.2 ≤ k) ∧ ∃ o ∈ origins, Walk (g.Leads direction) e.2 o e.1
  closed : ∀ e ∈ done, (∀ k ∈ bound, e.2 < k) → ∀ y, g.Leads direction e.1 y →
    ∃ d ≤ e.2 + 1, (y, d) ∈ done ++ s.queue
  origin_mem : ∀ o ∈ origins, (o, 0) ∈ done ++ s.queue

/-- The origins of a search are the given ids that are nodes. -/
theorem exists_sound_start (g : Graph) (direction : Direction) (bound : Option Nat)
    (origins : List Bytes) : ∃ known : List Bytes, Sound g direction bound known [] (start g origins) ∧
      (start g origins).visited = known ∧ ∀ x, x ∈ known ↔ x ∈ origins ∧ x ∈ g.ids := by
  obtain ⟨known, heq, hnodup, hmem⟩ := exists_foldl_eq (addOrigin g) (enter 0) (· ∈ g.ids)
    (fun _ _ => rfl) (fun s x hid hx => if_pos (by simp [hasNode_iff, hid, hx]))
    (fun s x hx => if_neg (by simpa [hasNode_iff] using hx)) origins ⟨[], [], []⟩
  have hstart : start g origins = ⟨known.map (·, 0), known, []⟩ := by
    rw [start, heq, foldl_enter]
    simp
  refine ⟨known, ?_, by rw [hstart], by simpa using hmem⟩
  rw [hstart]
  constructor
  case visited_eq => simp [Function.comp_def]
  case visited_split => simp
  case visited_nodup => exact hnodup
  case visited_ids => exact fun x hx => ((hmem x).1 hx).1.2
  case depths_sorted => exact List.pairwise_map.2 (List.pairwise_of_forall fun _ _ => le_rfl)
  case depth_le => simp
  case walked =>
    intro e he
    obtain ⟨o, ho, rfl⟩ := List.mem_map.1 he
    exact ⟨fun k _ => Nat.zero_le k, o, ho, .nil o⟩
  case closed => exact fun e he => absurd he List.not_mem_nil
  case origin_mem => exact fun o ho => List.mem_map_of_mem ho

section Turn

variable (hg : g.WellFormed) (hs : Sound g direction bound origins done s)
  (hqueue : s.queue = (id, depth) :: rest)

include hs hqueue

/-- Nothing in the queue is nearer than its front. -/
theorem depth_le_of_mem_rest {e : Bytes × Nat} (he : e ∈ rest) : depth ≤ e.2 := by
  have hsorted := hs.depths_sorted
  rw [hqueue, List.pairwise_append] at hsorted
  exact (List.pairwise_cons.1 hsorted.2.1).1 e he

include hg in
/-- A turn keeps the invariant. -/
theorem sound_follow : Sound g direction bound origins (done ++ [(id, depth)])
    (s.follow direction g bound id depth rest) := by
  obtain ⟨new, heq, hnodup, hmem⟩ := exists_follow_eq direction g bound id depth rest s
  have hfront : (id, depth) ∈ s.queue := by
    rw [hqueue]
    exact List.mem_cons_self
  have hentries : done ++ [(id, depth)] ++ (rest ++ new.map (·, depth + 1)) =
      done ++ s.queue ++ new.map (·, depth + 1) := by
    rw [hqueue]
    simp
  have hdepth : ∀ e ∈ done ++ s.queue, e.2 ≤ depth + 1 := hs.depth_le (id, depth) hfront
  have hnew : ∀ e ∈ new.map (·, depth + 1), e.2 = depth + 1 ∧ e.1 ∈ new := by simp
  rw [heq]
  constructor
  case visited_eq =>
    rw [hentries, List.map_append, ← hs.visited_eq]
    simp [Function.comp_def]
  case visited_split => rw [hs.visited_split, List.append_assoc]
  case visited_nodup =>
    exact hs.visited_nodup.append hnodup fun x hx hx' => ((hmem x).1 hx').2.2 hx
  case visited_ids =>
    intro x hx
    rcases List.mem_append.1 hx with hx | hx
    · exact hs.visited_ids x hx
    · exact hg.leads_mem ((hmem x).1 hx).2.1
  case depths_sorted =>
    rw [hentries, List.pairwise_append]
    refine ⟨hs.depths_sorted, List.pairwise_map.2 (List.pairwise_of_forall fun _ _ => le_rfl),
      fun e he e' he' => ?_⟩
    rw [(hnew e' he').1]
    exact hdepth e he
  case depth_le =>
    rw [hentries]
    intro e he e' he'
    have hle : depth ≤ e.2 := by
      rcases List.mem_append.1 he with he | he
      · exact depth_le_of_mem_rest hs hqueue he
      · rw [(hnew e he).1]
        exact Nat.le_succ depth
    rcases List.mem_append.1 he' with he' | he'
    · exact (hdepth e' he').trans (Nat.succ_le_succ hle)
    · rw [(hnew e' he').1]
      exact Nat.succ_le_succ hle
  case walked =>
    rw [hentries]
    intro e he
    rcases List.mem_append.1 he with he | he
    · exact hs.walked e he
    · obtain ⟨hdeeper, hmore⟩ := hnew e he
      obtain ⟨hwithin, hleads, -⟩ := (hmem e.1).1 hmore
      obtain ⟨-, o, ho, hwalk⟩ := hs.walked (id, depth) (List.mem_append_right _ hfront)
      rw [hdeeper]
      exact ⟨hwithin, o, ho, hwalk.concat hleads⟩
  case closed =>
    rw [hentries]
    intro e he hwithin y hleads
    rcases List.mem_append.1 he with he | he
    · obtain ⟨d, hd, hy⟩ := hs.closed e he hwithin y hleads
      exact ⟨d, hd, List.mem_append_left _ hy⟩
    · rw [List.mem_singleton.1 he] at hwithin hleads ⊢
      by_cases hy : y ∈ s.visited
      · rw [hs.visited_eq, List.mem_map] at hy
        obtain ⟨e', he', rfl⟩ := hy
        exact ⟨e'.2, hdepth e' he', List.mem_append_left _ he'⟩
      · exact ⟨depth + 1, le_rfl, List.mem_append_right _
          (List.mem_map_of_mem ((hmem y).2 ⟨hwithin, hleads, hy⟩))⟩
  case origin_mem =>
    rw [hentries]
    exact fun o ho => List.mem_append_left _ (hs.origin_mem o ho)

end Turn

/-! ### The whole search -/

/-- With fuel for all nodes the search goes on until the queue is empty. -/
theorem sound_run (hg : g.WellFormed) : ∀ (fuel : Nat) (done : List (Bytes × Nat)) (s : Spread),
    Sound g direction bound origins done s → g.ids.length ≤ done.length + fuel →
    ∃ done', Sound g direction bound origins done' (run direction g bound fuel s) ∧
      (run direction g bound fuel s).queue = [] := by
  intro fuel
  induction fuel with
  | zero =>
      intro done s hs hfuel
      refine ⟨done, hs, List.length_eq_zero_iff.1 (?_ : s.queue.length = 0)⟩
      have hle := (List.subperm_of_subset hs.visited_nodup hs.visited_ids).length_le
      rw [hs.visited_eq, List.length_map, List.length_append] at hle
      omega
  | succ fuel ih =>
      intro done s hs hfuel
      cases hqueue : s.queue with
      | nil =>
          have hrun : run direction g bound (fuel + 1) s = s := by rw [run, hqueue]
          rw [hrun]
          exact ⟨done, hs, hqueue⟩
      | cons e rest =>
          obtain ⟨id, depth⟩ := e
          have hrun : run direction g bound (fuel + 1) s =
              run direction g bound fuel (s.follow direction g bound id depth rest) := by
            rw [run, hqueue]
          rw [hrun]
          refine ih _ _ (sound_follow hg hs hqueue) ?_
          rw [List.length_append, List.length_singleton]
          omega

section Finished

variable (hs : Sound g direction bound origins done s) (hqueue : s.queue = [])

include hs hqueue

/-- The end of a walk within the bound was followed at a depth that does not exceed its length. -/
theorem exists_depth_of_walk {o : Bytes} {n : Nat} (ho : o ∈ origins)
    (hwalk : Walk (g.Leads direction) n o x) (hwithin : ∀ k ∈ bound, n ≤ k) :
    ∃ d ≤ n, (x, d) ∈ done := by
  have hentries : done ++ s.queue = done := by rw [hqueue, List.append_nil]
  induction hwalk with
  | nil => exact ⟨0, le_rfl, hentries ▸ hs.origin_mem _ ho⟩
  | concat _ hstep ih =>
      obtain ⟨d, hd, hmem⟩ := ih ho fun k hk => (Nat.le_succ _).trans (hwithin k hk)
      obtain ⟨d', hd', hmem'⟩ := hs.closed _ hmem (fun k hk => hd.trans_lt (hwithin k hk)) _ hstep
      exact ⟨d', hd'.trans (Nat.succ_le_succ hd), hentries ▸ hmem'⟩

/-- The depth of a node is its distance from the origins. -/
theorem depth_le_of_walk {o : Bytes} {n : Nat} (ho : o ∈ origins) (hmem : (x, depth) ∈ done)
    (hwalk : Walk (g.Leads direction) n o x) : depth ≤ n := by
  have hentries : done ++ s.queue = done := by rw [hqueue, List.append_nil]
  by_cases hwithin : ∀ k ∈ bound, n ≤ k
  · obtain ⟨d, hd, hmem'⟩ := exists_depth_of_walk hs hqueue ho hwalk hwithin
    have hnodup : (done.map (·.1)).Nodup := by
      have hnodup := hs.visited_nodup
      rwa [hs.visited_eq, hentries] at hnodup
    have hsame := List.inj_on_of_nodup_map hnodup hmem hmem' rfl
    rw [Prod.mk.injEq] at hsame
    exact hsame.2.trans_le hd
  · push Not at hwithin
    obtain ⟨k, hk, hlt⟩ := hwithin
    exact ((hs.walked (x, depth) (List.mem_append_left _ hmem)).1 k hk).trans hlt.le

theorem mem_visited_iff :
    x ∈ s.visited ↔ ∃ o ∈ origins, Within (g.Leads direction) bound o x := by
  rw [hs.visited_eq, hqueue, List.append_nil, List.mem_map]
  constructor
  · rintro ⟨e, he, rfl⟩
    obtain ⟨hwithin, o, ho, hwalk⟩ := hs.walked e (List.mem_append_left _ he)
    exact ⟨o, ho, e.2, hwithin, hwalk⟩
  · rintro ⟨o, ho, n, hwithin, hwalk⟩
    obtain ⟨d, -, hmem⟩ := exists_depth_of_walk hs hqueue ho hwalk hwithin
    exact ⟨(x, d), hmem, rfl⟩

/-- A node is no farther away than those that were visited after it. -/
theorem visited_in_order : s.visited.Pairwise fun near far =>
    ∀ k, (∃ o ∈ origins, Within (g.Leads direction) (some k) o far) →
      ∃ o ∈ origins, Within (g.Leads direction) (some k) o near := by
  have hentries : done ++ s.queue = done := by rw [hqueue, List.append_nil]
  have hsorted := hs.depths_sorted
  rw [hs.visited_eq, List.pairwise_map]
  rw [hentries] at hsorted ⊢
  refine hsorted.imp_of_mem fun {near far} hnear hfar hle => ?_
  rintro k ⟨o, ho, n, hn, hwalk⟩
  obtain ⟨-, o', ho', hwalk'⟩ := hs.walked near (List.mem_append_left _ hnear)
  have hdepth := hle.trans (depth_le_of_walk hs hqueue ho hfar hwalk)
  exact ⟨o', ho', near.2, fun k' hk' => hdepth.trans (hn k' hk'), hwalk'⟩

end Finished

/-- A search ends with what can be reached from the given ids that are nodes. -/
theorem exists_finished (hg : g.WellFormed) (direction : Direction) (bound : Option Nat)
    (origins : List Bytes) : ∃ known done, (∀ x, x ∈ known ↔ x ∈ origins ∧ x ∈ g.ids) ∧
      Sound g direction bound known done (run direction g bound g.nodes.length (start g origins)) ∧
      (run direction g bound g.nodes.length (start g origins)).queue = [] := by
  obtain ⟨known, hstart, -, hknown⟩ := exists_sound_start g direction bound origins
  obtain ⟨done, hs, hqueue⟩ := sound_run hg g.nodes.length [] _ hstart (by simp [ids])
  exact ⟨known, done, hknown, hs, hqueue⟩

theorem visited_subset_run (x : Bytes) : ∀ (fuel : Nat) (s : Spread), x ∈ s.visited →
    x ∈ (run direction g bound fuel s).visited := by
  intro fuel
  induction fuel with
  | zero => exact fun _ hx => hx
  | succ fuel ih =>
      intro s hx
      rw [run]
      split
      · exact hx
      · rename_i id depth rest hqueue
        obtain ⟨new, heq, -⟩ := exists_follow_eq direction g bound id depth rest s
        refine ih _ ?_
        rw [heq]
        exact List.mem_append_left _ hx

/-- A target that is not marked yet is met if the whole search would mark it. -/
theorem meets_iff (target : Bytes) : ∀ (fuel : Nat) (s : Spread), target ∉ s.visited →
    (meets target g fuel s = true ↔ target ∈ (run .forward g none fuel s).visited) := by
  intro fuel
  induction fuel with
  | zero => exact fun s htarget => iff_of_false Bool.false_ne_true htarget
  | succ fuel ih =>
      intro s htarget
      rw [meets, run]
      split
      · exact iff_of_false Bool.false_ne_true htarget
      · rename_i id depth rest hqueue
        obtain ⟨new, heq, -, hmem⟩ := exists_follow_eq .forward g none id depth rest s
        have hvisited : (s.follow .forward g none id depth rest).visited = s.visited ++ new := by
          rw [heq]
        rw [Bool.or_eq_true, List.contains_iff_mem]
        by_cases hnext : target ∈ g.targets id
        · refine iff_of_true (.inl hnext) (visited_subset_run target fuel _ ?_)
          rw [hvisited]
          exact List.mem_append_right _ ((hmem target).2 ⟨by simp, hnext, htarget⟩)
        · have hstill : target ∉ (s.follow .forward g none id depth rest).visited := by
            rw [hvisited, List.mem_append, not_or]
            exact ⟨htarget, fun h => hnext ((hmem target).1 h).2.1⟩
          rw [or_iff_right hnext, ih _ hstill]

end Spread

section Traversal

variable (hg : g.WellFormed) (direction : Direction) (bound : Option Nat) (origins : List Bytes)

include hg

theorem mem_traverse_iff : x ∈ g.traverse direction origins bound ↔
    (∃ o ∈ origins, o ∈ g.ids ∧ Within (g.Leads direction) bound o x) ∧ x ∉ origins := by
  obtain ⟨known, done, hknown, hs, hqueue⟩ := Spread.exists_finished hg direction bound origins
  have hvisited := Spread.mem_visited_iff (x := x) hs hqueue
  have hids := hs.visited_ids x
  have hnodup := hs.visited_nodup
  rw [hs.visited_split] at hvisited hids hnodup
  simp only [hknown, and_assoc] at hvisited
  rw [← hvisited, List.mem_append]
  constructor
  · intro hx
    refine ⟨.inr hx, fun horigin => ?_⟩
    have hmem := (hknown x).2 ⟨horigin, hids (List.mem_append_right _ hx)⟩
    exact List.disjoint_of_nodup_append hnodup hmem hx
  · rintro ⟨hx | hx, horigin⟩
    · exact absurd ((hknown x).1 hx).1 horigin
    · exact hx

theorem nodup_traverse : (g.traverse direction origins bound).Nodup := by
  obtain ⟨known, done, -, hs, -⟩ := Spread.exists_finished hg direction bound origins
  have hnodup := hs.visited_nodup
  rw [hs.visited_split] at hnodup
  exact hnodup.of_append_right

theorem traverse_in_order : (g.traverse direction origins bound).Pairwise fun near far =>
    ∀ k, (∃ o ∈ origins, o ∈ g.ids ∧ Within (g.Leads direction) (some k) o far) →
      ∃ o ∈ origins, o ∈ g.ids ∧ Within (g.Leads direction) (some k) o near := by
  obtain ⟨known, done, hknown, hs, hqueue⟩ := Spread.exists_finished hg direction bound origins
  have horder := Spread.visited_in_order hs hqueue
  rw [hs.visited_split] at horder
  simp only [hknown, and_assoc] at horder
  exact (List.pairwise_append.1 horder).2.1

end Traversal

theorem mem_allDependencies_iff (hg : g.WellFormed) : y ∈ g.allDependencies x bound ↔
    (x ∈ g.ids ∧ Within g.Adj bound x y) ∧ y ≠ x := by
  simp [allDependencies, mem_traverse_iff hg, within_forward_iff]

theorem mem_allDependents_iff (hg : g.WellFormed) : x ∈ g.allDependents y bound ↔
    (y ∈ g.ids ∧ Within g.Adj bound x y) ∧ x ≠ y := by
  simp [allDependents, mem_traverse_iff hg, within_backward_iff]

theorem hasPath_iff (hg : g.WellFormed) :
    g.hasPath x y = true ↔ (x ∈ g.ids ∧ y ∈ g.ids) ∧ g.Reaches x y := by
  rw [hasPath, Bool.and_eq_true, Bool.and_eq_true, hasNode_iff, hasNode_iff, Bool.or_eq_true,
    decide_eq_true_eq]
  refine and_congr_right fun ⟨hx, _⟩ => ?_
  by_cases heq : x = y
  · exact iff_of_true (.inl heq) (heq ▸ .refl)
  · obtain ⟨_, -, hstart, horigin⟩ := Spread.exists_sound_start g .forward none [x]
    have hy : y ∉ (Spread.start g [x]).visited := fun hmem => by
      rw [hstart, horigin, List.mem_singleton] at hmem
      exact heq hmem.1.symm
    obtain ⟨known, done, hknown, hs, hqueue⟩ := Spread.exists_finished hg .forward none [x]
    rw [or_iff_right heq, Spread.meets_iff y _ _ hy, Spread.mem_visited_iff hs hqueue]
    simp only [hknown, List.mem_singleton, and_assoc, exists_eq_left, hx, true_and, within_forward_iff]
    exact within_none_iff

theorem WellFormed.mem_ids_of_within (hg : g.WellFormed)
    (hwithin : Within (g.Leads direction) bound x y) (hx : x ∈ g.ids) : y ∈ g.ids := by
  obtain ⟨n, -, hwalk⟩ := hwithin
  cases hwalk with
  | nil => exact hx
  | concat _ hstep => exact hg.leads_mem hstep

/-- A node depends on those that have it among their dependents. -/
theorem mem_allDependencies_iff_mem_allDependents (hg : g.WellFormed) :
    y ∈ g.allDependencies x bound ↔ x ∈ g.allDependents y bound := by
  rw [mem_allDependencies_iff hg, mem_allDependents_iff hg]
  refine and_congr (and_congr_left fun hwithin => ⟨fun hx => ?_, fun hy => ?_⟩) ne_comm
  · exact hg.mem_ids_of_within (within_forward_iff.2 hwithin) hx
  · exact hg.mem_ids_of_within (within_backward_iff.2 hwithin) hy

/-- A search from several origins finds what the searches from each of them find, but for the origins
themselves. -/
theorem mem_traverse_filter_iff (hg : g.WellFormed) (ids : List Bytes) :
    x ∈ g.traverse direction (ids.filter fun id => g.hasNode id) bound ↔
      (∃ o ∈ ids, o ∈ g.ids ∧ x ∈ g.traverse direction [o] bound) ∧ x ∉ ids := by
  simp only [mem_traverse_iff hg, List.mem_filter, hasNode_iff, List.mem_singleton, exists_eq_left]
  constructor
  · rintro ⟨⟨o, ⟨ho, -⟩, hid, hwithin⟩, hx⟩
    have hnew : x ∉ ids := fun hmem => hx ⟨hmem, hg.mem_ids_of_within hwithin hid⟩
    have hne : x ≠ o := by
      rintro rfl
      exact hnew ho
    exact ⟨⟨o, ho, hid, ⟨hid, hwithin⟩, hne⟩, hnew⟩
  · rintro ⟨⟨o, ho, hid, ⟨-, hwithin⟩, -⟩, hx⟩
    exact ⟨⟨o, ⟨ho, hid⟩, hid, hwithin⟩, fun hmem => hx hmem.1⟩

/-- In every graph that operations make, what a node depends on within a bound is listed once, and it is
everything else that a walk within the bound leads to, nearer nodes first; what depends on a node within
the bound is what it is found from; and a selection tells the union of what is found from its nodes, apart
from these. -/
theorem closures_exact (operations : List Operation) (bound : Option Nat) :
    let g := ofOperations operations
    (∀ origin ∈ g.ids, (g.allDependencies origin bound).Nodup ∧
      (∀ x, x ∈ g.allDependencies origin bound ↔ Within g.Adj bound origin x ∧ x ≠ origin) ∧
      (g.allDependencies origin bound).Pairwise fun near far =>
        ∀ k, Within g.Adj (some k) origin far → Within g.Adj (some k) origin near) ∧
      (∀ origin x, x ∈ g.allDependencies origin bound ↔ origin ∈ g.allDependents x bound) ∧
      ∀ ids, let s := g.selection ids bound
        (∀ x, x ∈ s.dependencies ↔
          (∃ o ∈ ids, o ∈ g.ids ∧ x ∈ g.allDependencies o bound) ∧ x ∉ ids) ∧
        ∀ x, x ∈ s.dependents ↔ (∃ o ∈ ids, o ∈ g.ids ∧ x ∈ g.allDependents o bound) ∧ x ∉ ids := by
  intro g
  have hg : g.WellFormed := .ofOperations operations
  refine ⟨fun origin horigin => ⟨nodup_traverse hg _ _ _, fun x => ?_, ?_⟩, fun origin x => ?_, fun ids => ?_⟩
  · rw [mem_allDependencies_iff hg, and_iff_right horigin]
  · refine (traverse_in_order hg .forward bound [origin]).imp fun {near far} hnear k hfar => ?_
    simpa [horigin, within_forward_iff] using hnear k
      ⟨origin, List.mem_singleton_self _, horigin, within_forward_iff.2 hfar⟩
  · exact mem_allDependencies_iff_mem_allDependents hg
  · exact ⟨fun x => mem_traverse_filter_iff hg ids, fun x => mem_traverse_filter_iff hg ids⟩

/-- A ring of three nodes with two edges between the same two of them, and a node behind it: two steps
from its start lead around the ring and not out of it. -/
theorem closures_exact_ring :
    let node := fun id : Bytes => Operation.addNode ⟨id, .variable, [], [], .null, false⟩
    let edge := fun (source target : Bytes) type => Operation.addEdge ⟨source, target, type, .null⟩
    let operations := [node "a", node "b", node "c", node "d", edge "a" "b" .reads,
      edge "a" "b" .writes, edge "c" "d" .reads, edge "b" "c" .reads, edge "c" "a" .reads]
    let g := ofOperations operations
    Bytes.ofString "a" ∈ g.ids ∧ g.allDependencies "a" (some 2) = ["b", "c"] ∧
      Within g.Adj (some 2) "a" "c" ∧ ¬Within g.Adj (some 2) "a" "d" ∧
      Bytes.ofString "a" ∈ g.allDependents "c" (some 2) ∧
      Bytes.ofString "d" ∈ (g.selection ["a", "b", "e"] (some 2)).dependencies := by
  intro node edge operations g
  obtain ⟨hsingle, hturned, hselection⟩ := closures_exact operations (some 2)
  have horigin : Bytes.ofString "a" ∈ g.ids := by decide +kernel
  have hfound : g.allDependencies "a" (some 2) = ["b", "c"] := by decide +kernel
  obtain ⟨-, hmem, -⟩ := hsingle "a" horigin
  have hc : Bytes.ofString "c" ∈ g.allDependencies "a" (some 2) := by decide +kernel
  have hd : Bytes.ofString "d" ∉ g.allDependencies "a" (some 2) := by decide +kernel
  refine ⟨horigin, hfound, ((hmem _).1 hc).1, fun hwithin => hd ((hmem _).2 ⟨hwithin, by decide⟩),
    (hturned _ _).1 hc, ((hselection _).1 _).2 ⟨⟨"b", ?_⟩, ?_⟩⟩
  all_goals decide +kernel

end CampaignRules.Graph
