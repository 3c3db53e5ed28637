import CampaignRules.Graph.Build

/-! # Cached graphs

A cache keeps one graph for each campaign and branch that was asked for, and counts how often it
had one. A graph is built when it is first asked for and dropped when it is invalidated. Graphs are
found by the campaign and the branch with a colon between them. -/

namespace CampaignRules

structure GraphCache where
  entries : List (Bytes × GraphBuild)
  hits : Nat
  misses : Nat

namespace GraphCache

def empty : GraphCache := ⟨[], 0, 0⟩

def key (campaign branch : Bytes) : Bytes :=
  campaign ++ ":" ++ branch

def peek (campaign branch : Bytes) (cache : GraphCache) : Option GraphBuild :=
  cache.entries.lookup (key campaign branch)

def size (cache : GraphCache) : Nat :=
  cache.entries.length

/-- A graph with the cache after the request, and what there is to log. -/
structure Answer where
  build : GraphBuild
  cache : GraphCache
  log : List Log.Event

/-- The cached graph, or else the one that is built for the campaign and the branch. -/
def getOrBuild (campaign branch : Bytes)
    (build : Bytes → Bytes → GraphBuild × List Log.Event) (cache : GraphCache) : Answer :=
  match cache.peek campaign branch with
  | some found => ⟨found, { cache with hits := cache.hits + 1 }, []⟩
  | none =>
    let (built, log) := build campaign branch
    { build := built
      cache :=
        { cache with
          entries := (key campaign branch, built) :: cache.entries
          misses := cache.misses + 1 }
      log := log ++ [Log.debug "cache" ["Cached graph ", key campaign branch, " (",
        Bytes.decimal built.graph.nodes.length, " nodes)"]] }

def invalidate (campaign branch : Bytes) (cache : GraphCache) : GraphCache :=
  { cache with entries := cache.entries.filter fun e => e.1 ≠ key campaign branch }

/-- What there is to log about an invalidation: nothing, unless there is a graph to drop. -/
def invalidationLog (campaign branch : Bytes) (cache : GraphCache) : List Log.Event :=
  if (cache.peek campaign branch).isSome then
    [Log.debug "cache" ["Invalidated graph ", campaign, ":", branch]]
  else []

/-- The key begins with the campaign and a colon. -/
def isOfCampaign (campaign : Bytes) (key : Bytes) : Bool :=
  (campaign ++ ":").isPrefixOf key

/-- How many graphs `invalidateCampaign` drops. -/
def countOfCampaign (campaign : Bytes) (cache : GraphCache) : Nat :=
  cache.entries.countP fun e => isOfCampaign campaign e.1

/-- Drops all branches of a campaign. -/
def invalidateCampaign (campaign : Bytes) (cache : GraphCache) : GraphCache :=
  { cache with entries := cache.entries.filter fun e => !isOfCampaign campaign e.1 }

/-- Drops all graphs; the counts go on. -/
def clear (cache : GraphCache) : GraphCache :=
  { cache with entries := [] }

def statsToJson (cache : GraphCache) : Json :=
  .ofMembers [("entries", .ofNat cache.size), ("hits", .ofNat cache.hits),
    ("misses", .ofNat cache.misses)]

end GraphCache

end CampaignRules
