import PrefixTally.Arena.Marks
import PrefixTally.Arena.Path
import PrefixTally.Prefix
import PrefixTally.Tree

/-! A tree from a histogram.  Each entry is added at the node of its prefix, in order and without
any pruning, so the tree may start above its budget.  An entry that counts more bits than the keys
of the tree have is refused, and with it the whole tree. -/

namespace PrefixTally.Tree

variable {V : Type} [Tally V] {width : Nat}

/-- The tree with the value of an entry added at the node of its prefix. -/
def addEntry (t : Tree V width) (e : Entry V width) : Except Failure (Tree V width) := do
  if 8 * width < e.depth then throw (.refused (.depthOutOfRange e.depth (8 * width)))
  let { arena, cache, config, nodeCount, inserted, pruned } := t
  let ⟨id, created, arena⟩ ← (arena.ensurePath Arena.root e.path).orStop
  let arena ← (arena.add id e.value).orStop
  return ⟨arena, cache, config, nodeCount + created, inserted + created, pruned⟩

/-- The tree that holds the given entries. -/
def ofEntries (config : Config) (entries : List (Entry V width)) :
    Except Failure (Tree V width) := do
  let t ← (ofConfig config).mapError .refused
  entries.foldlM addEntry t

end PrefixTally.Tree
