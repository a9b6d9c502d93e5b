import PrefixTally.Tree.Histogram

/-! The counters of a tree at one moment, and their report. -/

namespace PrefixTally

/-- How often the cache of a tree found a key, and how often it did not. -/
structure CacheStats where
  hits : Nat
  misses : Nat
deriving DecidableEq

/-- The share of lookups that found their key, and zero before the first lookup.  The number of
lookups has to fit into a word. -/
def CacheStats.hitRatio (c : CacheStats) : Checked Float :=
  let lookups := c.hits + c.misses
  if wordMax < lookups then .error .overflow
  else if lookups = 0 then .ok 0
  else .ok (c.hits.toUInt64.toFloat / lookups.toUInt64.toFloat)

/-- The counters of a tree. -/
structure Stats (V : Type) where
  nodeCount : Nat
  maxNodes : Nat
  /-- The nodes that have a positive tally and no children. -/
  terminalNodes : Nat
  inserted : Nat
  pruned : Nat
  total : V
  cache : CacheStats
  /-- The slots of the arena, in use or not. -/
  arenaSlots : Nat

namespace Stats

variable {V : Type}

/-- Whether the tree has more nodes than its budget. -/
def overCapacity (s : Stats V) : Bool := s.maxNodes < s.nodeCount

/-- The report of the counters, one to a line. -/
def text [Tally V] (s : Stats V) : String :=
  "cache_hits: " ++ s.cache.hits.repr ++
  "\ncache_misses: " ++ s.cache.misses.repr ++
  "\nnodes: " ++ s.nodeCount.repr ++ " (max " ++ s.maxNodes.repr ++ ")" ++
  "\nterminal nodes: " ++ s.terminalNodes.repr ++
  "\ninserted: " ++ s.inserted.repr ++
  "\npruned: " ++ s.pruned.repr ++
  "\ntotal: " ++ Tally.text s.total ++ (if s.overCapacity then " (over capacity)\n" else "\n")

/-- The counters as a JSON object, given the JSON of the total. -/
def toJson (value : V → Json) (s : Stats V) : Json :=
  .object [("node_count", .nat s.nodeCount), ("max_nodes", .nat s.maxNodes),
    ("terminal_nodes", .nat s.terminalNodes), ("inserted", .nat s.inserted),
    ("pruned", .nat s.pruned), ("total", value s.total),
    ("cache", .object [("hits", .nat s.cache.hits), ("misses", .nat s.cache.misses)]),
    ("arena_slots", .nat s.arenaSlots)]

end Stats

namespace Tree

variable {V : Type} {width : Nat}

/-- The counters of the cache of a tree. -/
def cacheStats (t : Tree V width) : CacheStats := ⟨t.cache.hits, t.cache.misses⟩

/-- The counters of a tree. -/
def stats [Tally V] (t : Tree V width) : Checked (Stats V) := do
  return {
    nodeCount := t.nodeCount
    maxNodes := t.config.maxNodes
    terminalNodes := t.arena.terminalCount
    inserted := t.inserted
    pruned := t.pruned
    total := ← t.total
    cache := t.cacheStats
    arenaSlots := t.arena.slotCount }

end Tree

end PrefixTally
