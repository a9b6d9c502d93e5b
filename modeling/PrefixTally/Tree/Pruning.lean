import PrefixTally.Arena.Cheapest
import PrefixTally.Arena.Marks
import PrefixTally.Arena.Path
import PrefixTally.Prefix
import PrefixTally.Tree

/-! Pruning.  One step of pruning folds the children of the cheapest node into it, which loses the
prefixes of the children and keeps every sum.  A tree that has reached a limit is pruned until it
has no more than a share of the limit.  Each step reports what it did as a list of events. -/

namespace PrefixTally

/-- What pruning reports. -/
inductive PruneEvent (V : Type) where
  /-- The tree has reached a limit and is pruned down to a target. -/
  | limitReached (nodeCount limit target : Nat)
  /-- The children of a node are about to be folded into it. -/
  | folding (slot : SlotId) (depth : Nat)
  /-- A node was folded into its parent with its tally. -/
  | folded (slot : SlotId) (value : V)
  /-- The target cannot be reached, because only the root is left. -/
  | nothingLeft (nodeCount target : Nat)

/-- The text of a slot in a report. -/
def slotText (slot : SlotId) : String := "NodeId(" ++ slot.repr ++ ")"

/-- The line that reports an event. -/
def PruneEvent.text {V : Type} [Tally V] : PruneEvent V → String
  | limitReached nodeCount limit target =>
    "DEBUG node budget reached node_count=" ++ nodeCount.repr ++ " limit=" ++ limit.repr ++
      " target=" ++ target.repr
  | folding slot depth =>
    "TRACE collapsing node=" ++ slotText slot ++ " depth=" ++ depth.repr
  | folded slot value =>
    "TRACE folded leaf into parent child=" ++ slotText slot ++ " value=" ++ Tally.text value
  | nothingLeft nodeCount target =>
    "DEBUG nothing left to prune node_count=" ++ nodeCount.repr ++ " target=" ++ target.repr

/-- The outcome of an operation on a tree: the new tree, and what its pruning reported. -/
structure Step (V : Type) (width : Nat) where
  tree : Tree V width
  events : List (PruneEvent V)

/-- The node that the next step of pruning folds its children into, and what it will hold then. -/
structure Candidate (V : Type) (width : Nat) extends Prefix width where
  total : V

namespace Tree

variable {V : Type} [Tally V] {width : Nat}

/-- The tree in which the child of a node on the side of a bit, if there is one, is folded into the
node. -/
def foldChild (t : Tree V width) (id : SlotId) (bit : Bool) : Checked (Step V width) := do
  let { arena, cache, config, nodeCount, inserted, pruned } := t
  match ← arena.removeLeaf id bit with
  | none => return ⟨t, []⟩
  | some (child, value, arena) =>
    let arena ← arena.addOwn id value
    if nodeCount = 0 then throw .countUnderflow
    let tree := ⟨arena, cache.invalidate child, config, nodeCount - 1, inserted, pruned + 1⟩
    return ⟨tree, [.folded child value]⟩

/-- The tree in which both children of a node are folded into it, the one on the zero side first. -/
def foldChildren (t : Tree V width) (id : SlotId) : Checked (Step V width) := do
  let ⟨t, zeroEvents⟩ ← t.foldChild id false
  let ⟨t, oneEvents⟩ ← t.foldChild id true
  let { arena, cache, config, nodeCount, inserted, pruned } := t
  let arena ← arena.markDirty id
  return ⟨⟨arena, cache, config, nodeCount, inserted, pruned⟩, zeroEvents ++ oneEvents⟩

/-- The node that the next step of pruning works on, or nothing when only the root is left. -/
def candidate (t : Tree V width) : Checked (Option (Candidate V width)) := do
  match ← t.arena.cheapest with
  | none => return none
  | some site =>
    let path ← t.arena.pathTo site.slot
    if path.length ≠ site.depth then throw (.depthMismatch site.depth path.length)
    return some { Prefix.ofPath width path with total := ← t.arena.total site.slot }

/-- One step of pruning, or nothing when only the root is left. -/
def pruneOnce (t : Tree V width) : Checked (Option (Step V width)) := do
  match ← t.arena.cheapest with
  | none => return none
  | some site =>
    let ⟨t, events⟩ ← t.foldChildren site.slot
    return some ⟨t, .folding site.slot site.depth :: events⟩

/-- At most `times` steps of pruning, and how many of them found something to fold. -/
def pruneTimes : Nat → Tree V width → Checked (Nat × Step V width)
  | 0, t => return (0, ⟨t, []⟩)
  | times + 1, t => do
    match ← t.pruneOnce with
    | none => return (0, ⟨t, []⟩)
    | some ⟨t, events⟩ =>
      let (steps, ⟨t, later⟩) ← pruneTimes times t
      return (steps + 1, ⟨t, events ++ later⟩)

/-- Steps of pruning until at most `target` nodes are left.  The first argument bounds the number of
steps; every step folds a node away, so the node count is enough. -/
def pruneDownTo (target : Nat) : Nat → Tree V width → Checked (Step V width)
  | 0, t => return ⟨t, []⟩
  | steps + 1, t =>
    if t.nodeCount ≤ target then return ⟨t, []⟩
    else do
      match ← t.pruneOnce with
      | none => return ⟨t, [.nothingLeft t.nodeCount target]⟩
      | some ⟨t, events⟩ =>
        let ⟨t, later⟩ ← pruneDownTo target steps t
        return ⟨t, events ++ later⟩

/-- The tree pruned down to its share of `limit`, once it has `limit` nodes. -/
def enforceLimit (t : Tree V width) (limit : Nat) : Checked (Step V width) := do
  if t.nodeCount < limit then return ⟨t, []⟩
  let target := t.config.pruneTarget limit
  let reached := .limitReached t.nodeCount limit target
  let ⟨t, events⟩ ← pruneDownTo target t.nodeCount t
  return ⟨t, reached :: events⟩

end Tree

end PrefixTally
