import Mathlib.Data.List.Nodup
import Mathlib.Data.Nat.Basic
import Mathlib.Order.Basic
import Mathlib.Logic.Relation
import CampaignRules.Graph.Component
import CampaignRules.Proofs.Graph.Invariant

/-! The components that the depth-first search finds are the classes of nodes that reach each other.
The search is described by the path of the nodes under way. Every node on the stack reaches a node of
the path below it, and every node of the path reaches all that lies above it on the stack; an edge
from a node that is done leads to a node that was entered, and an edge from a node whose component is
known to another such node. A low number that is lower than the node's own therefore belongs to a
node below it that it reaches, and one that is not means that nothing above the node on the stack
leads below it. -/

namespace CampaignRules.Graph

/-- An edge of some type leads from one node to the other. -/
def Adj (g : Graph) (source target : Bytes) : Prop :=
  ∃ e ∈ g.edges, e.source = source ∧ e.target = target

/-- A walk of any length leads from one node to the other. -/
abbrev Reaches (g : Graph) : Bytes → Bytes → Prop :=
  Relation.ReflTransGen g.Adj

theorem WellFormed.adj_mem {g : Graph} (h : g.WellFormed) {source target : Bytes}
    (hadj : g.Adj source target) : source ∈ g.ids ∧ target ∈ g.ids := by
  obtain ⟨e, he, rfl, rfl⟩ := hadj
  exact ⟨h.source_mem e he, h.target_mem e he⟩

namespace Descent

/-- What holds of a search while it is under way along a path, innermost node first. -/
structure Sound (g : Graph) (path : List Bytes) (d : Descent) : Prop where
  stack_entered : ∀ x ∈ d.stack, x ∈ d.entered
  stack_sorted : d.stack.Pairwise fun x y => d.number y < d.number x
  path_stack : ∀ x ∈ path, x ∈ d.stack
  closed : ∀ x ∈ d.entered, x ∉ d.stack → ∀ y, g.Adj x y → y ∈ d.entered ∧ y ∉ d.stack
  done : ∀ x ∈ d.entered, x ∉ path → ∀ y, g.Adj x y → y ∈ d.entered
  reaches_path : ∀ x ∈ d.stack, ∃ y ∈ path, d.number y ≤ d.number x ∧ g.Reaches x y
  path_reaches : ∀ x ∈ path, ∀ y ∈ d.stack, d.number x ≤ d.number y → g.Reaches x y
  component : ∀ c ∈ d.components, c.Nodup ∧ ∀ x ∈ c, ∀ y, y ∈ c ↔ g.Reaches x y ∧ g.Reaches y x
  mem_component : ∀ x, (x ∈ d.entered ∧ x ∉ d.stack) ↔ ∃ c ∈ d.components, x ∈ c

/-- How a search goes on: it enters nodes and leaves what was on the stack there. Edges from the
nodes that are new on the stack lead no lower than the given number. -/
structure Grows (g : Graph) (d : Descent) (low : Nat) (d' : Descent) : Prop where
  entered : d.entered <+: d'.entered
  stack : ∃ top, d'.stack = top ++ d.stack ∧ (∀ x ∈ top, x ∉ d.entered) ∧
    ∀ x ∈ top, ∀ y ∈ d.stack, g.Adj x y → low ≤ d.number y

/-- The number stands for no node below the given one, or for one on the stack that is reached. -/
def Seen (g : Graph) (id : Bytes) (number : Nat) (d : Descent) (low : Nat) : Prop :=
  number ≤ low ∨ ∃ y ∈ d.stack, d.number y = low ∧ g.Reaches id y

/-- The nodes that were not entered yet. -/
def pending (g : Graph) (d : Descent) : List Bytes :=
  g.ids.filter fun id => !d.entered.contains id

/-- What connecting a node comes to. -/
structure Connected (g : Graph) (path : List Bytes) (id : Bytes) (d : Descent) (low : Nat)
    (d' : Descent) : Prop where
  sound : Sound g path d'
  mem : id ∈ d'.entered
  grows : Grows g d low d'
  seen : Seen g id d.entered.length d low

/-- What scanning the targets of a node comes to, which has the given number. -/
structure Scanned (g : Graph) (path : List Bytes) (id : Bytes) (number : Nat)
    (targets : List Bytes) (low : Nat) (d : Descent) (low' : Nat) (d' : Descent) : Prop where
  sound : Sound g path d'
  mem : ∀ t ∈ targets, t ∈ d'.entered
  grows : Grows g d low' d'
  low_le : low' ≤ low
  le_number : ∀ t ∈ targets, t ∈ d.stack → low' ≤ d.number t
  seen : Seen g id number d low → Seen g id number d' low'

variable {g : Graph} {path : List Bytes} {id : Bytes} {number low low' : Nat} {d d' d'' : Descent}

theorem number_kept (hahead : d.entered <+: d'.entered) {x : Bytes} (hx : x ∈ d.entered) :
    d'.number x = d.number x := by
  obtain ⟨more, hmore⟩ := hahead
  rw [Descent.number, ← hmore, List.idxOf_append_of_mem hx]
  rfl

theorem number_lt {x : Bytes} (hx : x ∈ d.entered) : d.number x < d.entered.length :=
  List.idxOf_lt_length_iff.2 hx

theorem number_enter (hnew : id ∉ d.entered) : (d.enter id).number id = d.entered.length := by
  simp [Descent.number, enter, List.idxOf_append, hnew]

theorem entered_enter (id : Bytes) (d : Descent) : d.entered <+: (d.enter id).entered :=
  List.prefix_append _ _

theorem number_enter_of_mem (id : Bytes) {x : Bytes} (hx : x ∈ d.entered) :
    (d.enter id).number x = d.number x :=
  number_kept (entered_enter id d) hx

theorem pending_le (hahead : d.entered <+: d'.entered) :
    (d'.pending g).length ≤ (d.pending g).length := by
  refine (List.monotone_filter_right _ fun x hx => ?_).length_le
  simp only [Bool.not_eq_true', List.contains_eq_mem, decide_eq_false_iff_not] at hx ⊢
  exact fun hmem => hx (hahead.subset hmem)

theorem pending_enter_lt (hid : id ∈ g.ids) (hnew : id ∉ d.entered) :
    ((d.enter id).pending g).length < (d.pending g).length := by
  refine lt_of_le_of_ne (pending_le (entered_enter id d)) fun heq => ?_
  have hsub : ((d.enter id).pending g).Sublist (d.pending g) :=
    List.monotone_filter_right _ fun x hx => by
      simp only [Bool.not_eq_true', List.contains_eq_mem, decide_eq_false_iff_not] at hx ⊢
      exact fun hmem => hx ((entered_enter id d).subset hmem)
  have hmem : id ∈ (d.enter id).pending g := by
    rw [hsub.eq_of_length heq]
    simpa [pending] using ⟨hid, hnew⟩
  simp [pending, enter] at hmem

theorem close_eq {top below : List Bytes} (hstack : d.stack = top ++ id :: below)
    (hid : id ∉ top) : d.close id =
      { d with stack := below, components := d.components ++ [top ++ [id]] } := by
  have hne : ∀ x ∈ top, decide (x ≠ id) = true := fun x hx =>
    decide_eq_true fun heq => hid (heq ▸ hx)
  rw [Descent.close, hstack, List.dropWhile_append_of_pos hne, List.takeWhile_append_of_pos hne]
  simp

theorem Grows.refl (d : Descent) (low : Nat) : Grows g d low d :=
  ⟨List.prefix_refl _, [], rfl, by simp, by simp⟩

theorem Grows.mem_stack (h : Grows g d low d') {x : Bytes} (hx : x ∈ d.stack) : x ∈ d'.stack := by
  obtain ⟨top, htop, -⟩ := h.stack
  rw [htop]
  exact List.mem_append_right _ hx

/-- Two stretches of a search make one, along which edges lead no lower than the lower of the two
numbers. -/
theorem Grows.trans (hs : Sound g path d) (h : Grows g d low d') (h' : Grows g d' low' d'')
    (hlow : low' ≤ low) : Grows g d low' d'' := by
  obtain ⟨top, htop, hfresh, hedge⟩ := h.stack
  obtain ⟨top', htop', hfresh', hedge'⟩ := h'.stack
  refine ⟨h.entered.trans h'.entered, top' ++ top, ?_, fun x hx => ?_, fun x hx y hy hadj => ?_⟩
  · rw [htop', htop, List.append_assoc]
  · rcases List.mem_append.1 hx with hx | hx
    · exact fun hmem => hfresh' x hx (h.entered.subset hmem)
    · exact hfresh x hx
  · rcases List.mem_append.1 hx with hx | hx
    · rw [← number_kept h.entered (hs.stack_entered y hy)]
      exact hedge' x hx y (h.mem_stack hy) hadj
    · exact hlow.trans (hedge x hx y hy hadj)

theorem Seen.mono (hs : Sound g path d) (h : Grows g d low' d') (hseen : Seen g id number d low) :
    Seen g id number d' low := by
  rcases hseen with hle | ⟨y, hy, hlow, hreach⟩
  · exact Or.inl hle
  · refine Or.inr ⟨y, h.mem_stack hy, ?_, hreach⟩
    rw [number_kept h.entered (hs.stack_entered y hy), hlow]

theorem Seen.min (hlow : Seen g id number d low) (hlow' : Seen g id number d low') :
    Seen g id number d (min low low') := by
  rcases Nat.le_total low low' with hle | hle
  · rwa [Nat.min_eq_left hle]
  · rwa [Nat.min_eq_right hle]

namespace Sound

theorem number_ne (hs : Sound g path d) {x : Bytes} (hx : x ∈ d.stack) (hnew : id ∉ d.entered) :
    x ≠ id := by
  rintro rfl
  exact hnew (hs.stack_entered x hx)

theorem enter (hs : Sound g path d) (hnew : id ∉ d.entered)
    (hreach : ∀ x ∈ path, g.Reaches x id) : Sound g (id :: path) (d.enter id) := by
  have hnumber : ∀ x ∈ d.stack, (d.enter id).number x = d.number x :=
    fun x hx => number_enter_of_mem _ (hs.stack_entered x hx)
  have hlt : ∀ x ∈ d.stack, (d.enter id).number x < (d.enter id).number id := fun x hx => by
    rw [hnumber x hx, number_enter hnew]
    exact number_lt (hs.stack_entered x hx)
  have hold : ∀ x ∈ (d.enter id).entered, x ≠ id → x ∈ d.entered := by
    simp [Descent.enter]
    tauto
  refine ⟨fun x hx => ?_, ?_, fun x hx => ?_, fun x hx hstack y hadj => ?_, fun x hx hpath y hadj => ?_,
    fun x hx => ?_, fun x hx y hy hle => ?_, hs.component, fun x => ?_⟩
  · rcases List.mem_cons.1 hx with rfl | hx
    · simp [Descent.enter]
    · exact (entered_enter id d).subset (hs.stack_entered x hx)
  · refine List.pairwise_cons.2 ⟨hlt, hs.stack_sorted.imp_of_mem fun {x y} hx hy h => ?_⟩
    rwa [hnumber x hx, hnumber y hy]
  · rcases List.mem_cons.1 hx with rfl | hx
    · exact List.mem_cons_self
    · exact List.mem_cons_of_mem _ (hs.path_stack x hx)
  · obtain ⟨hne, hstack⟩ := not_or.1 (mt List.mem_cons.2 hstack)
    obtain ⟨hy, hystack⟩ := hs.closed x (hold x hx hne) hstack y hadj
    refine ⟨(entered_enter id d).subset hy, fun hmem => ?_⟩
    rcases List.mem_cons.1 hmem with rfl | hmem
    · exact hnew hy
    · exact hystack hmem
  · obtain ⟨hne, hpath⟩ := not_or.1 (mt List.mem_cons.2 hpath)
    exact (entered_enter id d).subset (hs.done x (hold x hx hne) hpath y hadj)
  · rcases List.mem_cons.1 hx with rfl | hx
    · exact ⟨x, List.mem_cons_self, le_rfl, .refl⟩
    · obtain ⟨y, hy, hle, hxy⟩ := hs.reaches_path x hx
      refine ⟨y, List.mem_cons_of_mem _ hy, ?_, hxy⟩
      rwa [hnumber y (hs.path_stack y hy), hnumber x hx]
  · rcases List.mem_cons.1 hx with hxid | hxpath <;> rcases List.mem_cons.1 hy with hyid | hystack
    · rw [hxid, hyid]
    · rw [hxid] at hle
      exact absurd (hlt y hystack) hle.not_gt
    · rw [hyid]
      exact hreach x hxpath
    · rw [hnumber x (hs.path_stack x hxpath), hnumber y hystack] at hle
      exact hs.path_reaches x hxpath y hystack hle
  · refine Iff.trans ?_ (hs.mem_component x)
    simp only [Descent.enter, List.mem_append, List.mem_cons, List.not_mem_nil, or_false]
    constructor
    · rintro ⟨hx | hx, hstack⟩
      · exact ⟨hx, fun h => hstack (Or.inr h)⟩
      · exact absurd (Or.inl hx) hstack
    · rintro ⟨hx, hstack⟩
      refine ⟨Or.inl hx, ?_⟩
      rintro (rfl | h)
      · exact hnew hx
      · exact hstack h

/-- What is reached from a node whose component is known has a known component. -/
theorem closed_of_reaches (hs : Sound g path d) {x y : Bytes} (hx : x ∈ d.entered)
    (hstack : x ∉ d.stack) (hreach : g.Reaches x y) : y ∈ d.entered ∧ y ∉ d.stack := by
  induction hreach with
  | refl => exact ⟨hx, hstack⟩
  | tail _ hadj ih => exact hs.closed _ ih.1 ih.2 _ hadj

end Sound

/-! ### Leaving a node

After the scan of a node's targets the stack is a top of nodes that are done, the node, and the stack
that there was before. -/

section Leave

variable {top : List Bytes} (hs : Sound g path d) (hnew : id ∉ d.entered)
  (hscan : Scanned g (id :: path) id d.entered.length (g.targets id) d.entered.length (d.enter id)
    low d')
  (htop : d'.stack = top ++ id :: d.stack)

include hnew hscan in
theorem number_left : d'.number id = d.entered.length := by
  rw [number_kept hscan.grows.entered (by simp [enter]), number_enter hnew]

include hs hscan in
theorem number_below {x : Bytes} (hx : x ∈ d.stack) : d'.number x = d.number x :=
  number_kept ((entered_enter id d).trans hscan.grows.entered) (hs.stack_entered x hx)

include hs hscan in
theorem number_below_lt {x : Bytes} (hx : x ∈ d.stack) : d'.number x < d.entered.length := by
  rw [number_below hs hscan hx]
  exact number_lt (hs.stack_entered x hx)

include hscan in
/-- The nodes on top, the node itself included, are entered and lead only to such nodes. -/
theorem entered_of_adj_left {x y : Bytes} (hx : x ∈ d'.entered) (hpath : x ∉ path)
    (hadj : g.Adj x y) : y ∈ d'.entered := by
  by_cases hxid : x = id
  · subst hxid
    exact hscan.mem y (mem_targets.2 hadj)
  · exact hscan.sound.done x hx (by simp [hxid, hpath]) y hadj

include hs hscan htop in
/-- Edges from the node, or from above it on the stack, lead no lower than the low number. -/
theorem low_le_of_adj {x y : Bytes} (hx : x ∈ top ++ [id]) (hy : y ∈ d.stack)
    (hadj : g.Adj x y) : low ≤ d.number y := by
  rcases List.mem_append.1 hx with hx | hx
  · obtain ⟨top', htop', -, hedge⟩ := hscan.grows.stack
    have heq : top = top' := List.append_cancel_right (htop.symm.trans htop')
    rw [← number_enter_of_mem id (hs.stack_entered y hy)]
    exact hedge x (heq ▸ hx) y (List.mem_cons_of_mem _ hy) hadj
  · rw [List.mem_singleton.1 hx] at hadj
    rw [← number_enter_of_mem id (hs.stack_entered y hy)]
    exact hscan.le_number y (mem_targets.2 hadj) (List.mem_cons_of_mem _ hy)

include hs hnew hscan htop in
theorem left_not_path {x : Bytes} (hx : x ∈ top ++ [id]) : x ∈ d'.entered ∧ x ∉ path := by
  have hstack : x ∈ d'.stack := by
    rw [htop, List.append_cons]
    exact List.mem_append_left _ hx
  refine ⟨hscan.sound.stack_entered x hstack, fun hpath => ?_⟩
  rcases List.mem_append.1 hx with hx | hx
  · obtain ⟨top', htop', hfresh, -⟩ := hscan.grows.stack
    have heq : top = top' := List.append_cancel_right (htop.symm.trans htop')
    exact hfresh x (heq ▸ hx) ((entered_enter id d).subset (hs.stack_entered x (hs.path_stack x hpath)))
  · exact hs.number_ne (hs.path_stack x hpath) hnew (List.mem_singleton.1 hx)

include hscan htop in
theorem id_not_mem_top : id ∉ top := by
  have hsorted := hscan.sound.stack_sorted
  rw [htop, List.pairwise_append] at hsorted
  exact fun hmem => lt_irrefl _ (hsorted.2.2 id hmem id List.mem_cons_self)

include hs hnew hscan htop in
theorem left_of_adj (hlow : low = d.entered.length) {x y : Bytes} (hx : x ∈ top ++ [id])
    (hadj : g.Adj x y) : y ∈ top ++ [id] ∨ (y ∈ d'.entered ∧ y ∉ d'.stack) := by
  obtain ⟨hentered, hpath⟩ := left_not_path hs hnew hscan htop hx
  have hy := entered_of_adj_left hscan hentered hpath hadj
  by_cases hstack : y ∈ d'.stack
  · rw [htop, List.append_cons] at hstack
    rcases List.mem_append.1 hstack with hmem | hbelow
    · exact Or.inl hmem
    · have hle := low_le_of_adj hs hscan htop hx hbelow hadj
      have hlt := number_lt (hs.stack_entered y hbelow)
      omega
  · exact Or.inr ⟨hy, hstack⟩

include hs hnew hscan htop in
theorem left_of_reaches (hlow : low = d.entered.length) {x y : Bytes} (hx : x ∈ top ++ [id])
    (hreach : g.Reaches x y) : y ∈ top ++ [id] ∨ (y ∈ d'.entered ∧ y ∉ d'.stack) := by
  induction hreach with
  | refl => exact Or.inl hx
  | tail _ hadj ih =>
      rcases ih with hmem | hclosed
      · exact left_of_adj hs hnew hscan htop hlow hmem hadj
      · exact Or.inr (hscan.sound.closed _ hclosed.1 hclosed.2 _ hadj)

include htop in
theorem left_not_below (hsorted : d'.stack.Pairwise fun x y => d'.number y < d'.number x) {x : Bytes}
    (hx : x ∈ top ++ [id]) : x ∉ d.stack := by
  rw [htop, List.append_cons] at hsorted
  exact fun hmem => lt_irrefl _ ((List.pairwise_append.1 hsorted).2.2 x hx x hmem)

include hs hnew hscan htop in
/-- Above the first node of a component there is nothing on the stack but its component. -/
theorem component_left (hlow : low = d.entered.length) :
    (top ++ [id]).Nodup ∧ ∀ x ∈ top ++ [id], ∀ y,
      y ∈ top ++ [id] ↔ g.Reaches x y ∧ g.Reaches y x := by
  have hsound := hscan.sound
  have hstack : ∀ x ∈ top ++ [id], x ∈ d'.stack := fun x hx => by
    rw [htop, List.append_cons]
    exact List.mem_append_left _ hx
  have hsorted := hsound.stack_sorted
  rw [htop, List.append_cons, List.pairwise_append] at hsorted
  have hfrom : ∀ x ∈ top ++ [id], g.Reaches id x := fun x hx => by
    refine hsound.path_reaches id List.mem_cons_self x (hstack x hx) ?_
    rcases List.mem_append.1 hx with htop | hid
    · exact ((List.pairwise_append.1 hsorted.1).2.2 x htop id (List.mem_singleton_self id)).le
    · rw [List.mem_singleton.1 hid]
  have hto : ∀ x ∈ top ++ [id], g.Reaches x id := fun x hx => by
    obtain ⟨y, hy, -, hxy⟩ := hsound.reaches_path x (hstack x hx)
    rcases List.mem_cons.1 hy with rfl | hy
    · exact hxy
    · have hbelow := hs.path_stack y hy
      rcases left_of_reaches hs hnew hscan htop hlow hx hxy with hmem | ⟨-, hnot⟩
      · exact absurd hbelow (left_not_below htop hsound.stack_sorted hmem)
      · exact absurd (hsound.path_stack y (List.mem_cons_of_mem _ hy)) hnot
  refine ⟨hsorted.1.imp fun {x y} hlt heq => ?_, fun x hx y => ⟨fun hy => ?_, fun hxy => ?_⟩⟩
  · rw [heq] at hlt
    exact lt_irrefl _ hlt
  · exact ⟨(hto x hx).trans (hfrom y hy), (hto y hy).trans (hfrom x hx)⟩
  · rcases left_of_reaches hs hnew hscan htop hlow hx hxy.1 with hmem | ⟨hy, hnot⟩
    · exact hmem
    · exact absurd (hstack x hx) (hsound.closed_of_reaches hy hnot hxy.2).2

include hs hnew hscan htop in
theorem sound_close (hlow : low = d.entered.length) : Sound g path (d'.close id) := by
  have hsound := hscan.sound
  obtain ⟨hnodup, hclass⟩ := component_left hs hnew hscan htop hlow
  have hstack : ∀ x, x ∈ d'.stack ↔ x ∈ top ++ [id] ∨ x ∈ d.stack := fun x => by
    rw [htop, List.append_cons, List.mem_append]
  have hbelow : ∀ x ∈ d.stack, x ∈ d'.stack := fun x hx => (hstack x).2 (Or.inr hx)
  have hnot : ∀ x ∈ top ++ [id], x ∉ d.stack :=
    fun x hx => left_not_below htop hsound.stack_sorted hx
  have hpath : ∀ x ∈ path, d'.number x < d'.number id := fun x hx => by
    rw [number_left hnew hscan]
    exact number_below_lt hs hscan (hs.path_stack x hx)
  rw [close_eq htop (id_not_mem_top hscan htop)]
  refine ⟨fun x hx => hsound.stack_entered x (hbelow x hx), ?_, hs.path_stack, fun x hx hnx y hadj => ?_,
    fun x hx hnx y hadj => entered_of_adj_left hscan hx hnx hadj, fun x hx => ?_,
    fun x hx y hy hle => hsound.path_reaches x (List.mem_cons_of_mem _ hx) y (hbelow y hy) hle,
    fun c hc => ?_, fun x => ?_⟩
  · have hsorted := hsound.stack_sorted
    rw [htop, List.append_cons, List.pairwise_append] at hsorted
    exact hsorted.2.1
  · by_cases hmem : x ∈ top ++ [id]
    · rcases left_of_adj hs hnew hscan htop hlow hmem hadj with hy | ⟨hy, hny⟩
      · exact ⟨hsound.stack_entered y ((hstack y).2 (Or.inl hy)), hnot y hy⟩
      · exact ⟨hy, fun h => hny (hbelow y h)⟩
    · have hnx' : x ∉ d'.stack := fun h => ((hstack x).1 h).elim hmem hnx
      obtain ⟨hy, hny⟩ := hsound.closed x hx hnx' y hadj
      exact ⟨hy, fun h => hny (hbelow y h)⟩
  · obtain ⟨y, hy, hle, hxy⟩ := hs.reaches_path x hx
    refine ⟨y, hy, ?_, hxy⟩
    show d'.number y ≤ d'.number x
    rwa [number_below hs hscan (hs.path_stack y hy), number_below hs hscan hx]
  · rcases List.mem_append.1 hc with hc | hc
    · exact hsound.component c hc
    · rw [List.mem_singleton.1 hc]
      exact ⟨hnodup, hclass⟩
  · have hold := hsound.mem_component x
    simp only [List.mem_append, List.mem_singleton, or_and_right, exists_or, exists_eq_left, ← hold,
      hstack] at hnot ⊢
    constructor
    · rintro ⟨hx, hnx⟩
      tauto
    · rintro (⟨hx, hnx⟩ | hx)
      · tauto
      · exact ⟨hsound.stack_entered x ((hstack x).2 (Or.inl (by simpa using hx))), hnot x hx⟩

include hs hnew hscan htop in
/-- The low number, if it is lower than the node's own, belongs to a node below on the stack. -/
theorem seen_below (hlow : low < d.entered.length) :
    ∃ y ∈ d.stack, d.number y = low ∧ g.Reaches id y := by
  have hstart : Seen g id d.entered.length (d.enter id) d.entered.length := Or.inl le_rfl
  rcases hscan.seen hstart with hle | ⟨y, hy, hnumber, hreach⟩
  · omega
  · have hbelow : y ∈ d.stack := by
      have hsorted := hscan.sound.stack_sorted
      rw [htop, List.pairwise_append] at hsorted
      have hid := number_left hnew hscan
      rw [htop] at hy
      rcases List.mem_append.1 hy with hy | hy
      · have hlt := hsorted.2.2 y hy id List.mem_cons_self
        omega
      · rcases List.mem_cons.1 hy with rfl | hy
        · omega
        · exact hy
    refine ⟨y, hbelow, ?_, hreach⟩
    rw [← number_below hs hscan hbelow, hnumber]

include hs hnew hscan htop in
theorem sound_leave (hlow : low < d.entered.length) : Sound g path d' := by
  have hsound := hscan.sound
  obtain ⟨y, hy, hnumber, hreach⟩ := seen_below hs hnew hscan htop hlow
  obtain ⟨z, hz, hle, hyz⟩ := hs.reaches_path y hy
  refine ⟨hsound.stack_entered, hsound.stack_sorted,
    fun x hx => hsound.path_stack x (List.mem_cons_of_mem _ hx), hsound.closed,
    fun x hx hnx y hadj => entered_of_adj_left hscan hx hnx hadj, fun x hx => ?_,
    fun x hx => hsound.path_reaches x (List.mem_cons_of_mem _ hx), hsound.component,
    hsound.mem_component⟩
  obtain ⟨w, hw, hwx, hxw⟩ := hsound.reaches_path x hx
  rcases List.mem_cons.1 hw with rfl | hw
  · have hzlt := number_below_lt hs hscan (hs.path_stack z hz)
    rw [number_left hnew hscan] at hwx
    exact ⟨z, hz, by omega, hxw.trans (hreach.trans hyz)⟩
  · exact ⟨w, hw, hwx, hxw⟩

end Leave

/-! ### The whole search -/

/-- The step from the targets of a node to the node. -/
theorem connected_of_scanned (hs : Sound g path d) (hnew : id ∉ d.entered)
    (hscan : Scanned g (id :: path) id d.entered.length (g.targets id) d.entered.length (d.enter id)
      low d') :
    Connected g path id d low (if low = d.entered.length then d'.close id else d') := by
  obtain ⟨top, htop, hfresh, -⟩ := hscan.grows.stack
  have hgrows : d.entered <+: d'.entered := (entered_enter id d).trans hscan.grows.entered
  have hmem : id ∈ d'.entered := hscan.grows.entered.subset (by simp [enter])
  by_cases hlow : low = d.entered.length
  · rw [if_pos hlow]
    have heq := close_eq htop (id_not_mem_top hscan htop)
    refine ⟨sound_close hs hnew hscan htop hlow, hmem, ⟨hgrows, [], ?_, by simp, by simp⟩,
      Or.inl hlow.ge⟩
    rw [heq, List.nil_append]
  · have hlt : low < d.entered.length := lt_of_le_of_ne hscan.low_le hlow
    rw [if_neg hlow]
    refine ⟨sound_leave hs hnew hscan htop hlt, hmem, ⟨hgrows, top ++ [id], ?_, fun x hx => ?_, ?_⟩,
      Or.inr (seen_below hs hnew hscan htop hlt)⟩
    · rw [htop]
      simp [enter]
    · rcases List.mem_append.1 hx with hx | hx
      · exact fun h => hfresh x hx ((entered_enter id d).subset h)
      · rwa [List.mem_singleton.1 hx]
    · exact fun x hx y hy hadj => low_le_of_adj hs hscan htop hx hy hadj

/-- Scanning is sound if connecting is for all nodes that were not entered yet. -/
theorem scanned_scan (number : Nat) {connect : Bytes → Descent → Nat × Descent} {fuel : Nat}
    (hconnect : ∀ t d, Sound g path d → t ∉ d.entered → g.Adj id t → (d.pending g).length ≤ fuel →
      Connected g path t d (connect t d).1 (connect t d).2) :
    ∀ (targets : List Bytes) (low : Nat) (d : Descent), Sound g path d →
      (∀ t ∈ targets, g.Adj id t) → number ≤ d.entered.length → (d.pending g).length ≤ fuel →
      Scanned g path id number targets low d (scan connect targets low d).1
        (scan connect targets low d).2 := by
  intro targets
  induction targets with
  | nil =>
      intro low d hs _ _ _
      exact ⟨hs, by simp, .refl d low, le_rfl, by simp, fun hseen => hseen⟩
  | cons t rest ih =>
      intro low d hs hadj hnumber hfuel
      have hrest : ∀ t ∈ rest, g.Adj id t := fun t ht => hadj t (List.mem_cons_of_mem _ ht)
      have ht := hadj t List.mem_cons_self
      by_cases hentered : t ∈ d.entered
      · have hrec : scan connect (t :: rest) low d =
            scan connect rest (if t ∈ d.stack then min low (d.number t) else low) d := by
          simp only [scan, List.contains_eq_mem, hentered, decide_true, Bool.not_true,
            Bool.false_eq_true, if_false, decide_eq_true_eq]
          split_ifs <;> rfl
        have hlow : (if t ∈ d.stack then min low (d.number t) else low) ≤ low := by
          split_ifs <;> omega
        have h := ih (if t ∈ d.stack then min low (d.number t) else low) d hs hrest hnumber hfuel
        rw [hrec]
        refine ⟨h.sound, ?_, h.grows, h.low_le.trans hlow, ?_, fun hseen => h.seen ?_⟩
        · rintro t' (_ | ⟨_, ht'⟩)
          · exact h.grows.entered.subset hentered
          · exact h.mem t' ht'
        · rintro t' (_ | ⟨_, ht'⟩) hstack
          · refine h.low_le.trans ?_
            rw [if_pos hstack]
            exact Nat.min_le_right _ _
          · exact h.le_number t' ht' hstack
        · split_ifs with hstack
          · exact hseen.min (Or.inr ⟨t, hstack, rfl, .single ht⟩)
          · exact hseen
      · obtain ⟨hsound, hmem, hgrows, hseenT⟩ := hconnect t d hs hentered ht hfuel
        have hrec : scan connect (t :: rest) low d =
            scan connect rest (min low (connect t d).1) (connect t d).2 := by
          simp [scan, hentered]
        have h := ih (min low (connect t d).1) (connect t d).2 hsound hrest
          (hnumber.trans hgrows.entered.length_le) ((pending_le hgrows.entered).trans hfuel)
        have hle := h.low_le
        rw [hrec]
        refine ⟨h.sound, ?_, hgrows.trans hs h.grows (by omega), by omega, ?_, fun hseen => h.seen ?_⟩
        · rintro t' (_ | ⟨_, ht'⟩)
          · exact h.grows.entered.subset hmem
          · exact h.mem t' ht'
        · rintro t' (_ | ⟨_, ht'⟩) hstack
          · exact absurd (hs.stack_entered t hstack) hentered
          · rw [← number_kept hgrows.entered (hs.stack_entered t' hstack)]
            exact h.le_number t' ht' (hgrows.mem_stack hstack)
        · refine (hseen.mono hs hgrows).min ?_
          rcases hseenT with hle | ⟨y, hy, hnumberY, hreach⟩
          · exact Or.inl (hnumber.trans hle)
          · refine Or.inr ⟨y, hgrows.mem_stack hy, ?_, .head ht hreach⟩
            rw [number_kept hgrows.entered (hs.stack_entered y hy), hnumberY]

/-- Connecting a node is sound as long as the fuel lasts for the nodes not entered yet. -/
theorem connected_connect (hg : g.WellFormed) :
    ∀ (fuel : Nat) (path : List Bytes) (id : Bytes) (d : Descent), Sound g path d → id ∉ d.entered →
      id ∈ g.ids → (∀ x ∈ path, g.Reaches x id) → (d.pending g).length ≤ fuel →
      Connected g path id d (connect g fuel id d).1 (connect g fuel id d).2 := by
  intro fuel
  induction fuel with
  | zero =>
      intro path id d _ hnew hid _ hfuel
      have hlt := pending_enter_lt hid hnew
      omega
  | succ fuel ih =>
      intro path id d hs hnew hid hreach hfuel
      have hlt := pending_enter_lt hid hnew
      have hlength : (d.enter id).entered.length = d.entered.length + 1 := by simp [enter]
      have hreach' : ∀ x ∈ id :: path, g.Reaches x id := by
        rintro x (_ | ⟨_, hx⟩)
        · exact .refl
        · exact hreach x hx
      have hscan := scanned_scan d.entered.length
        (fun t d' hs' ht hadj hle => ih (id :: path) t d' hs' ht (hg.adj_mem hadj).2
          (fun x hx => (hreach' x hx).tail hadj) hle)
        (g.targets id) d.entered.length (d.enter id) (hs.enter hnew hreach)
        (fun t ht => mem_targets.1 ht) (by omega) (by omega)
      have h := connected_of_scanned hs hnew hscan
      rw [connect]
      split_ifs at h ⊢ with hlow
      all_goals simpa [hlow] using h

theorem sound_start : Sound g [] start := by
  constructor <;> simp [start]

theorem sound_visit (hg : g.WellFormed) (hs : Sound g [] d) (hid : id ∈ g.ids) :
    Sound g [] (visit g d id) ∧ id ∈ (visit g d id).entered ∧
      d.entered <+: (visit g d id).entered := by
  by_cases hentered : id ∈ d.entered
  · simpa [visit, hentered] using hs
  · have hfuel : (d.pending g).length ≤ g.nodes.length := by
      simpa [pending, ids] using List.length_filter_le (fun id => !d.entered.contains id) g.ids
    have h := connected_connect hg g.nodes.length [] id d hs hentered hid (by simp) hfuel
    simpa [visit, hentered] using ⟨h.sound, h.mem, h.grows.entered⟩

theorem sound_foldl_visit (hg : g.WellFormed) :
    ∀ (ids : List Bytes) (d : Descent), Sound g [] d → (∀ id ∈ ids, id ∈ g.ids) →
      Sound g [] (ids.foldl (visit g) d) ∧ (∀ id ∈ ids, id ∈ (ids.foldl (visit g) d).entered) ∧
        d.entered <+: (ids.foldl (visit g) d).entered := by
  intro ids
  induction ids with
  | nil => exact fun d hs _ => ⟨hs, by simp, List.prefix_refl _⟩
  | cons id rest ih =>
      intro d hs hids
      obtain ⟨hsound, hmem, hahead⟩ := sound_visit hg hs (hids id List.mem_cons_self)
      obtain ⟨hsound', hmem', hahead'⟩ :=
        ih (visit g d id) hsound fun x hx => hids x (List.mem_cons_of_mem _ hx)
      refine ⟨hsound', ?_, hahead.trans hahead'⟩
      rintro x (_ | ⟨_, hx⟩)
      · exact hahead'.subset hmem
      · exact hmem' x hx

end Descent

variable {g : Graph}

/-- A component is a class of nodes that reach each other, each listed once. -/
theorem mem_component_iff (hg : g.WellFormed) {c : List Bytes} (hc : c ∈ g.components) :
    c.Nodup ∧ ∀ x ∈ c, ∀ y, y ∈ c ↔ g.Reaches x y ∧ g.Reaches y x :=
  (Descent.sound_foldl_visit hg g.ids _ Descent.sound_start fun _ h => h).1.component c hc

/-- Every node has a component. -/
theorem exists_component (hg : g.WellFormed) {id : Bytes} (hid : id ∈ g.ids) :
    ∃ c ∈ g.components, id ∈ c := by
  obtain ⟨hsound, hmem, -⟩ :=
    Descent.sound_foldl_visit hg g.ids _ Descent.sound_start fun _ h => h
  refine (hsound.mem_component id).1 ⟨hmem id hid, fun hstack => ?_⟩
  obtain ⟨y, hy, -⟩ := hsound.reaches_path id hstack
  exact List.not_mem_nil hy

end CampaignRules.Graph
