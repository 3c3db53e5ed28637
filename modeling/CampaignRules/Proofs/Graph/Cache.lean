import Mathlib.Data.Finset.Card
import Mathlib.Data.List.Nodup
import CampaignRules.Graph.Cache

/-! What a cache answers. A cache is meant to keep one graph for a campaign and a branch: the one that
was last built for them, until it is dropped. It finds graphs by a text, and two pairs of a campaign and
a branch may have the same text. The names that the calls of a run use decide whether it answers as it is
meant to: it does so in all runs over some names just if the texts tell these names apart. -/

namespace CampaignRules.GraphCache

/-- A use of a cache. Who asks for a graph says how to build it. -/
inductive Call where
  | getOrBuild (campaign branch : Bytes) (build : Bytes → Bytes → GraphBuild × List Log.Event)
  | peek (campaign branch : Bytes)
  | invalidate (campaign branch : Bytes)
  | invalidateCampaign (campaign : Bytes)
  | clear

/-- What a call gives back. With a graph that was asked for comes how many graphs were built for it. -/
inductive Reply where
  | graph (graph : GraphBuild) (built : Nat)
  | found (graph : Option GraphBuild)
  | wasThere (dropped : Bool)
  | count (dropped : Nat)
  | done

namespace Call

def run : Call → GraphCache → Reply × GraphCache
  | .getOrBuild campaign branch build, cache =>
    let answer := cache.getOrBuild campaign branch build
    (.graph answer.build (answer.cache.misses - cache.misses), answer.cache)
  | .peek campaign branch, cache => (.found (cache.peek campaign branch), cache)
  | .invalidate campaign branch, cache =>
    (.wasThere (cache.peek campaign branch).isSome, cache.invalidate campaign branch)
  | .invalidateCampaign campaign, cache =>
    (.count (cache.countOfCampaign campaign), cache.invalidateCampaign campaign)
  | .clear, cache => (.done, cache.clear)

/-- The call names no campaign and branch but these, and drops no campaign but these. -/
def Names (pairs : Set (Bytes × Bytes)) (campaigns : Set Bytes) : Call → Prop
  | .getOrBuild campaign branch _ | .peek campaign branch | .invalidate campaign branch =>
    (campaign, branch) ∈ pairs
  | .invalidateCampaign campaign => campaign ∈ campaigns
  | .clear => True

/-- What a pair has after a call that finds it with a graph or without. -/
def leaves (pair : Bytes × Bytes) (had : Option GraphBuild) : Call → Option GraphBuild
  | .getOrBuild campaign branch build =>
    if pair = (campaign, branch) then some (had.getD (build campaign branch).1) else had
  | .peek _ _ => had
  | .invalidate campaign branch => if pair = (campaign, branch) then none else had
  | .invalidateCampaign campaign => if pair.1 = campaign then none else had
  | .clear => none

/-- The pair that a graph is asked for. -/
def asked? : Call → Option (Bytes × Bytes)
  | .getOrBuild campaign branch _ => some (campaign, branch)
  | _ => none

end Call

/-- The cache after some calls. -/
def after (calls : List Call) : GraphCache :=
  calls.foldl (fun cache call => (call.run cache).2) .empty

/-- The graph that was last built for exactly this campaign and branch, unless it was dropped since. -/
def held (calls : List Call) (pair : Bytes × Bytes) : Option GraphBuild :=
  calls.foldl (fun had call => call.leaves pair had) none

/-- The branches of a campaign that have a graph. -/
def heldOf (calls : List Call) (campaign : Bytes) : Finset (Bytes × Bytes) :=
  (calls.filterMap Call.asked?).toFinset.filter fun pair =>
    pair.1 = campaign ∧ (held calls pair).isSome

/-- What a call is meant to give back after other calls. -/
def Call.meant (calls : List Call) : Call → Reply
  | .getOrBuild campaign branch build =>
    match held calls (campaign, branch) with
    | some graph => .graph graph 0
    | none => .graph (build campaign branch).1 1
  | .peek campaign branch => .found (held calls (campaign, branch))
  | .invalidate campaign branch => .wasThere (held calls (campaign, branch)).isSome
  | .invalidateCampaign campaign => .count (heldOf calls campaign).card
  | .clear => .done

/-- The pairs have different keys, and no key of them is one of a dropped campaign that is not theirs. -/
structure ToldApart (pairs : Set (Bytes × Bytes)) (campaigns : Set Bytes) : Prop where
  pair : ∀ p ∈ pairs, ∀ q ∈ pairs, key p.1 p.2 = key q.1 q.2 → p = q
  campaign : ∀ campaign ∈ campaigns, ∀ p ∈ pairs, ∀ branch,
    key p.1 p.2 = key campaign branch → p.1 = campaign

theorem isOfCampaign_iff {campaign text : Bytes} :
    isOfCampaign campaign text = true ↔ ∃ branch, text = key campaign branch := by
  rw [isOfCampaign, List.isPrefixOf_iff_prefix]
  exact exists_congr fun branch => eq_comm

/-- Campaigns without a colon can be read off the keys, whatever is in the branches. -/
theorem key_inj {campaign branch campaign' branch' : Bytes} (hcampaign : ':'.toUInt8 ∉ campaign)
    (hcampaign' : ':'.toUInt8 ∉ campaign') (heq : key campaign branch = key campaign' branch') :
    campaign = campaign' ∧ branch = branch' := by
  have hcut : ∀ {c b : Bytes}, ':'.toUInt8 ∉ c → Bytes.cutAt ':'.toUInt8 (key c b) = (c, some b) := by
    intro c b hc
    have hkey : key c b = c ++ ':'.toUInt8 :: b := List.append_assoc c _ b
    rw [hkey, Bytes.cutAt_append hc]
  have hsame := congrArg (Bytes.cutAt ':'.toUInt8) heq
  rw [hcut hcampaign, hcut hcampaign', Prod.mk.injEq, Option.some.injEq] at hsame
  exact hsame

theorem toldApart_of_no_colon {pairs : Set (Bytes × Bytes)} {campaigns : Set Bytes}
    (hpairs : ∀ p ∈ pairs, ':'.toUInt8 ∉ p.1) (hcampaigns : ∀ c ∈ campaigns, ':'.toUInt8 ∉ c) :
    ToldApart pairs campaigns where
  pair p hp q hq heq := Prod.ext_iff.2 (key_inj (hpairs p hp) (hpairs q hq) heq)
  campaign c hc p hp _ heq := (key_inj (hpairs p hp) (hcampaigns c hc) heq).1

variable {pairs : Set (Bytes × Bytes)} {campaigns : Set Bytes} {calls : List Call} {call : Call}
  {cache : GraphCache}

theorem lookup_eq_some_iff {entries : List (Bytes × GraphBuild)} (hnodup : (entries.map (·.1)).Nodup)
    {text : Bytes} {graph : GraphBuild} :
    entries.lookup text = some graph ↔ (text, graph) ∈ entries := by
  induction entries with
  | nil => simp
  | cons e rest ih =>
      obtain ⟨k, g⟩ := e
      rw [List.map_cons, List.nodup_cons] at hnodup
      rw [List.lookup_cons, List.mem_cons, Prod.mk.injEq]
      by_cases hk : text = k
      · subst hk
        have hnew : (text, graph) ∉ rest := fun hmem => hnodup.1 (List.mem_map.2 ⟨_, hmem, rfl⟩)
        simp [hnew, eq_comm]
      · have hne : (text == k) = false := by simpa using hk
        simp [hk, hne, ih hnodup.2]

/-- The entries of the cache are the graphs that the calls left to the pairs. -/
structure Keeps (pairs : Set (Bytes × Bytes)) (calls : List Call) (cache : GraphCache) : Prop where
  nodup : (cache.entries.map (·.1)).Nodup
  entry : ∀ text graph, (text, graph) ∈ cache.entries ↔
    ∃ p ∈ pairs, text = key p.1 p.2 ∧ held calls p = some graph

theorem held_append (pair : Bytes × Bytes) :
    held (calls ++ [call]) pair = call.leaves pair (held calls pair) :=
  List.foldl_append

theorem after_append : after (calls ++ [call]) = (call.run (after calls)).2 :=
  List.foldl_append

theorem Keeps.peek_eq (h : Keeps pairs calls cache) (hapart : ToldApart pairs campaigns)
    {pair : Bytes × Bytes} (hpair : pair ∈ pairs) :
    cache.peek pair.1 pair.2 = held calls pair := by
  refine Option.ext fun graph => ?_
  rw [peek, lookup_eq_some_iff h.nodup, h.entry]
  constructor
  · rintro ⟨q, hq, hkey, hheld⟩
    rwa [hapart.pair pair hpair q hq hkey]
  · exact fun hheld => ⟨pair, hpair, rfl, hheld⟩

theorem run_getOrBuild_of_some {campaign branch : Bytes} {found : GraphBuild}
    (build : Bytes → Bytes → GraphBuild × List Log.Event) (hpeek : cache.peek campaign branch = some found) :
    (Call.getOrBuild campaign branch build).run cache =
      (.graph found 0, { cache with hits := cache.hits + 1 }) := by
  simp only [Call.run, getOrBuild, hpeek, Nat.sub_self]

theorem run_getOrBuild_of_none {campaign branch : Bytes}
    (build : Bytes → Bytes → GraphBuild × List Log.Event) (hpeek : cache.peek campaign branch = none) :
    (Call.getOrBuild campaign branch build).run cache =
      (.graph (build campaign branch).1 1,
        { cache with
          entries := (key campaign branch, (build campaign branch).1) :: cache.entries
          misses := cache.misses + 1 }) := by
  simp only [Call.run, getOrBuild, hpeek, Nat.add_sub_cancel_left]

theorem Keeps.getOrBuild (h : Keeps pairs calls cache) (hapart : ToldApart pairs campaigns)
    {campaign branch : Bytes} (build : Bytes → Bytes → GraphBuild × List Log.Event)
    (hpair : (campaign, branch) ∈ pairs) :
    Keeps pairs (calls ++ [.getOrBuild campaign branch build])
      ((Call.getOrBuild campaign branch build).run cache).2 := by
  have hpeek : cache.peek campaign branch = held calls (campaign, branch) := h.peek_eq hapart hpair
  cases hheld : held calls (campaign, branch) with
  | some found =>
      have hsame : ∀ p, held (calls ++ [.getOrBuild campaign branch build]) p = held calls p := by
        intro p
        rw [held_append, Call.leaves]
        split
        · rename_i heq
          rw [heq, hheld, Option.getD_some]
        · rfl
      rw [run_getOrBuild_of_some build (hpeek.trans hheld)]
      exact ⟨h.nodup, fun text graph => by simp only [hsame, h.entry]⟩
  | none =>
      rw [run_getOrBuild_of_none build (hpeek.trans hheld)]
      refine ⟨?_, fun text graph => ?_⟩
      · refine List.nodup_cons.2 ⟨fun hmem => ?_, h.nodup⟩
        obtain ⟨⟨text, graph⟩, hentry, rfl⟩ := List.mem_map.1 hmem
        obtain ⟨p, hp, hkey, hheld'⟩ := (h.entry _ _).1 hentry
        rw [← hapart.pair _ hpair p hp hkey, hheld] at hheld'
        cases hheld'
      · simp only [held_append, Call.leaves, List.mem_cons, Prod.mk.injEq, h.entry]
        constructor
        · rintro (⟨rfl, rfl⟩ | ⟨p, hp, rfl, hheld'⟩)
          · exact ⟨(campaign, branch), hpair, rfl, by rw [if_pos rfl, hheld, Option.getD_none]⟩
          · have hne : p ≠ (campaign, branch) := by
              rintro rfl
              rw [hheld] at hheld'
              cases hheld'
            exact ⟨p, hp, rfl, by rw [if_neg hne, hheld']⟩
        · rintro ⟨p, hp, rfl, hheld'⟩
          split at hheld'
          · rename_i heq
            rw [heq, hheld, Option.getD_none, Option.some.injEq] at hheld'
            exact .inl ⟨by rw [heq], hheld'.symm⟩
          · exact .inr ⟨p, hp, rfl, hheld'⟩

/-- A call that drops entries by their keys does so to the pairs that it takes the graphs from. -/
theorem Keeps.filter (h : Keeps pairs calls cache) (keep : Bytes → Bool)
    (hleaves : ∀ p ∈ pairs, call.leaves p (held calls p) =
      if keep (key p.1 p.2) = true then held calls p else none) :
    Keeps pairs (calls ++ [call]) { cache with entries := cache.entries.filter fun e => keep e.1 } := by
  refine ⟨h.nodup.sublist (List.filter_sublist.map _), fun text graph => ?_⟩
  rw [List.mem_filter, h.entry]
  constructor
  · rintro ⟨⟨p, hp, rfl, hheld⟩, hkeep⟩
    exact ⟨p, hp, rfl, by rw [held_append, hleaves p hp, if_pos hkeep, hheld]⟩
  · rintro ⟨p, hp, rfl, hheld⟩
    rw [held_append, hleaves p hp] at hheld
    split at hheld
    · rename_i hkeep
      exact ⟨⟨p, hp, rfl, hheld⟩, hkeep⟩
    · cases hheld

theorem Keeps.run (h : Keeps pairs calls cache) (hapart : ToldApart pairs campaigns)
    (hnames : call.Names pairs campaigns) : Keeps pairs (calls ++ [call]) (call.run cache).2 := by
  cases call with
  | getOrBuild campaign branch build => exact h.getOrBuild hapart build hnames
  | peek campaign branch =>
      refine ⟨h.nodup, fun text graph => ?_⟩
      simp only [held_append]
      exact h.entry text graph
  | invalidate campaign branch =>
      refine h.filter (fun text => text ≠ key campaign branch) fun p hp => ?_
      have hkey : key p.1 p.2 = key campaign branch ↔ p = (campaign, branch) :=
        ⟨hapart.pair p hp _ hnames, fun heq => heq ▸ rfl⟩
      simp only [Call.leaves, decide_eq_true_eq, ne_eq, hkey, ite_not]
  | invalidateCampaign campaign =>
      refine h.filter (fun text => !isOfCampaign campaign text) fun p hp => ?_
      have hcampaign : isOfCampaign campaign (key p.1 p.2) = true ↔ p.1 = campaign := by
        rw [isOfCampaign_iff]
        refine ⟨fun ⟨branch, hkey⟩ => hapart.campaign campaign hnames p hp branch hkey, ?_⟩
        rintro rfl
        exact ⟨p.2, rfl⟩
      simp only [Call.leaves, Bool.not_eq_true', ← Bool.not_eq_true, hcampaign, ite_not]
  | clear =>
      refine ⟨List.nodup_nil, fun text graph => ?_⟩
      simp [Call.run, clear, held_append, Call.leaves]

/-- A cache that is used with names that keys tell apart keeps what the calls left. -/
theorem keeps_after (hapart : ToldApart pairs campaigns)
    (hnames : ∀ call ∈ calls, call.Names pairs campaigns) : Keeps pairs calls (after calls) := by
  induction calls using List.reverseRecOn with
  | nil => exact ⟨List.nodup_nil, fun text graph => by simp [after, empty, held]⟩
  | append_singleton calls call ih =>
      rw [List.forall_mem_append, List.forall_mem_singleton] at hnames
      rw [after_append]
      exact (ih hnames.1).run hapart hnames.2

theorem asked_of_held {p : Bytes × Bytes} (hheld : (held calls p).isSome) :
    p ∈ calls.filterMap Call.asked? := by
  induction calls using List.reverseRecOn with
  | nil => cases hheld
  | append_singleton calls call ih =>
      rw [held_append] at hheld
      rw [List.filterMap_append, List.mem_append]
      cases call with
      | getOrBuild campaign branch build =>
          rw [Call.leaves] at hheld
          split at hheld
          · rename_i heq
            exact .inr (by simp [Call.asked?, heq])
          · exact .inl (ih hheld)
      | peek campaign branch => exact .inl (ih hheld)
      | invalidate campaign branch | invalidateCampaign campaign =>
          rw [Call.leaves] at hheld
          split at hheld
          · cases hheld
          · exact .inl (ih hheld)
      | clear => cases hheld

theorem mem_heldOf {campaign : Bytes} {p : Bytes × Bytes} :
    p ∈ heldOf calls campaign ↔ p.1 = campaign ∧ (held calls p).isSome := by
  rw [heldOf, Finset.mem_filter, List.mem_toFinset]
  exact ⟨And.right, fun h => ⟨asked_of_held h.2, h⟩⟩

theorem mem_of_held (hnames : ∀ call ∈ calls, call.Names pairs campaigns) {p : Bytes × Bytes}
    (hheld : (held calls p).isSome) : p ∈ pairs := by
  obtain ⟨call, hcall, hasked⟩ := List.mem_filterMap.1 (asked_of_held hheld)
  cases call with
  | getOrBuild campaign branch build =>
      cases hasked
      exact hnames _ hcall
  | peek _ _ | invalidate _ _ | invalidateCampaign _ | clear => cases hasked

/-- The graphs that a campaign has are counted by their keys. -/
theorem Keeps.countOfCampaign_eq (h : Keeps pairs calls cache) (hapart : ToldApart pairs campaigns)
    (hnames : ∀ call ∈ calls, call.Names pairs campaigns) {campaign : Bytes}
    (hcampaign : campaign ∈ campaigns) :
    cache.countOfCampaign campaign = (heldOf calls campaign).card := by
  have hinj : Set.InjOn (fun p : Bytes × Bytes => key p.1 p.2) (heldOf calls campaign) :=
    fun p hp q hq hkey => hapart.pair p (mem_of_held hnames (mem_heldOf.1 hp).2) q
      (mem_of_held hnames (mem_heldOf.1 hq).2) hkey
  have hnodup : ((cache.entries.filter fun e => isOfCampaign campaign e.1).map (·.1)).Nodup :=
    h.nodup.sublist (List.filter_sublist.map _)
  have htexts : ((cache.entries.filter fun e => isOfCampaign campaign e.1).map (·.1)).toFinset =
      (heldOf calls campaign).image fun p => key p.1 p.2 := by
    ext text
    simp only [List.mem_toFinset, List.mem_map, List.mem_filter, Finset.mem_image, mem_heldOf,
      isOfCampaign_iff]
    constructor
    · rintro ⟨⟨_, graph⟩, ⟨hentry, branch, hbranch⟩, rfl⟩
      obtain ⟨p, hp, hkey, hheld⟩ := (h.entry _ _).1 hentry
      have howner := hapart.campaign campaign hcampaign p hp branch (hkey.symm.trans hbranch)
      exact ⟨p, ⟨howner, Option.isSome_of_eq_some hheld⟩, hkey.symm⟩
    · rintro ⟨p, ⟨rfl, hheld⟩, rfl⟩
      obtain ⟨graph, hgraph⟩ := Option.isSome_iff_exists.1 hheld
      have hentry := (h.entry _ _).2 ⟨p, mem_of_held hnames hheld, rfl, hgraph⟩
      exact ⟨_, ⟨hentry, p.2, rfl⟩, rfl⟩
  rw [countOfCampaign, List.countP_eq_length_filter, ← Finset.card_image_of_injOn hinj, ← htexts,
    List.toFinset_card_of_nodup hnodup, List.length_map]

/-! ### Answers -/

/-- With names that keys tell apart, every call gives back what it is meant to. -/
theorem reply_eq_meant (hapart : ToldApart pairs campaigns)
    (hcalls : ∀ call ∈ calls, call.Names pairs campaigns) (hcall : call.Names pairs campaigns) :
    (call.run (after calls)).1 = call.meant calls := by
  have h := keeps_after hapart hcalls
  cases call with
  | getOrBuild campaign branch build =>
      have hpeek := h.peek_eq hapart hcall
      rw [Call.meant]
      cases hheld : held calls (campaign, branch) with
      | some found => rw [run_getOrBuild_of_some build (hpeek.trans hheld)]
      | none => rw [run_getOrBuild_of_none build (hpeek.trans hheld)]
  | peek campaign branch => exact congrArg Reply.found (h.peek_eq hapart hcall)
  | invalidate campaign branch =>
      exact congrArg (fun found : Option GraphBuild => Reply.wasThere found.isSome) (h.peek_eq hapart hcall)
  | invalidateCampaign campaign =>
      exact congrArg Reply.count (h.countOfCampaign_eq hapart hcalls hcall)
  | clear => rfl

/-- A request for a graph with nothing in it. -/
def request (p : Bytes × Bytes) : Call :=
  .getOrBuild p.1 p.2 fun _ _ => (⟨.empty, []⟩, [])

/-- If all calls give back what they are meant to, then keys tell the names apart: of two pairs with one
key the second one has a graph after a request for the first, and the key of a pair counts for every
campaign that it may be read as. -/
theorem toldApart_of_replies
    (hreplies : ∀ calls : List Call, (∀ call ∈ calls, call.Names pairs campaigns) →
      ∀ call : Call, call.Names pairs campaigns → (call.run (after calls)).1 = call.meant calls) :
    ToldApart pairs campaigns := by
  have hrequest : ∀ p ∈ pairs, ∀ call ∈ [request p], call.Names pairs campaigns :=
    fun p hp => List.forall_mem_singleton.2 hp
  have hentries : ∀ p, (after [request p]).entries = [(key p.1 p.2, ⟨.empty, []⟩)] := fun _ => rfl
  constructor
  · intro p hp q hq hkey
    by_contra hne
    have hreply := hreplies [request p] (hrequest p hp) (.peek q.1 q.2) hq
    have hfound : (after [request p]).peek q.1 q.2 = some ⟨.empty, []⟩ := by
      rw [peek, hentries, hkey, List.lookup_cons_self]
    have hheld : held [request p] q = none := if_neg fun heq => hne heq.symm
    simp [Call.run, Call.meant, hfound, hheld] at hreply
  · intro campaign hcampaign p hp branch hkey
    by_contra hne
    have hreply := hreplies [request p] (hrequest p hp) (.invalidateCampaign campaign) hcampaign
    have hcount : (after [request p]).countOfCampaign campaign = 1 := by
      rw [countOfCampaign, hentries, List.countP_singleton, if_pos (isOfCampaign_iff.2 ⟨branch, hkey⟩)]
    have hnone : heldOf [request p] campaign = ∅ := by
      ext q
      simp only [mem_heldOf, Finset.notMem_empty, iff_false, not_and, Bool.not_eq_true]
      rintro rfl
      have hother : q ≠ (p.1, p.2) := by
        rintro rfl
        exact hne rfl
      exact congrArg Option.isSome (if_neg hother : held [request p] q = none)
    simp [Call.run, Call.meant, hcount, hnone] at hreply

/-- A cache gives back what it is meant to in all runs over some names, that is a graph for a campaign
and a branch once it was built for them and until it is dropped, just if the keys tell these names apart.
They do if no campaign has a colon in it, whatever the branches are. -/
theorem answers_by_pair_iff (pairs : Set (Bytes × Bytes)) (campaigns : Set Bytes) :
    ((∀ calls : List Call, (∀ call ∈ calls, call.Names pairs campaigns) →
      ∀ call : Call, call.Names pairs campaigns →
        (call.run (after calls)).1 = call.meant calls) ↔ ToldApart pairs campaigns) ∧
      ((∀ p ∈ pairs, ':'.toUInt8 ∉ p.1) → (∀ campaign ∈ campaigns, ':'.toUInt8 ∉ campaign) →
        ToldApart pairs campaigns) :=
  ⟨⟨toldApart_of_replies, fun hapart _ hcalls _ hcall => reply_eq_meant hapart hcalls hcall⟩,
    toldApart_of_no_colon⟩

/-- A campaign is given the graph of another one, and it is dropped with a third one. -/
theorem answers_for_other_pair :
    let build : Bytes → Bytes → GraphBuild × List Log.Event := fun campaign branch =>
      (⟨⟨[Graph.variableNode (campaign ++ "/" ++ branch)], []⟩, []⟩, [])
    let calls : List Call := [.getOrBuild "a" "b:c" build]
    let graph := (build "a" "b:c").1
    held calls ("a:b", "c") = none ∧
      ((Call.getOrBuild "a:b" "c" build).run (after calls)).1 = .graph graph 0 ∧
      (Call.getOrBuild "a:b" "c" build).meant calls = .graph (build "a:b" "c").1 1 ∧
      ((Call.invalidateCampaign "a:b").run (after calls)).1 = .count 1 ∧
      (Call.invalidateCampaign "a:b").meant calls = .count 0 :=
  ⟨rfl, rfl, rfl, rfl, rfl⟩

end CampaignRules.GraphCache
