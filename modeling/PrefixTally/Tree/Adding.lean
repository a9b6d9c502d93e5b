import PrefixTally.Tree.Pruning

/-! Adding to a tree.  An add first prunes a tree that has reached its budget.  The key then has its
own node, as deep as the key has bits, and the nodes on the way to it are created where they are
missing; a key that the cache remembers needs no walk.  A key is cut to the width of the tree, and a
shorter key tallies at a shorter prefix. -/

namespace PrefixTally.Tree

variable {V : Type} [Tally V] {width : Nat}

/-- The tree with `value` added at the node of a key that is not longer than the tree is wide. -/
def place (t : Tree V width) (key : Bytes) (value : V) : Checked (Tree V width) := do
  let { arena, cache, config, nodeCount, inserted, pruned } := t
  match cache.lookup key with
  | (some id, cache) =>
    let arena ← arena.add id value
    return ⟨arena, cache, config, nodeCount, inserted, pruned⟩
  | (none, cache) =>
    let ⟨id, created, arena⟩ ← arena.ensurePath Arena.root (Bits.unpack key)
    let arena ← arena.add id value
    return ⟨arena, cache.insert key id, config, nodeCount + created, inserted + created, pruned⟩

/-- The tree with `value` added for a key. -/
def add (t : Tree V width) (key : Bytes) (value : V) : Checked (Step V width) := do
  let ⟨t, events⟩ ← t.enforceLimit t.config.maxNodes
  let t ← t.place (key.take width) value
  return ⟨t, events⟩

/-- The tree with all values of a list added for their keys, in order. -/
def addAll : Tree V width → List (Bytes × V) → Checked (Step V width)
  | t, [] => return ⟨t, []⟩
  | t, (key, value) :: rest => do
    let ⟨t, events⟩ ← t.add key value
    let ⟨t, later⟩ ← addAll t rest
    return ⟨t, events ++ later⟩

end PrefixTally.Tree
