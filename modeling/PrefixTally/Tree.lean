import PrefixTally.Arena.Marks
import PrefixTally.Cache
import PrefixTally.Config

/-! The tree itself.  A tree tallies keys of up to `width` bytes in a binary trie that is kept
within a budget of nodes.  It counts its nodes without the root, the nodes ever created and the
nodes ever folded into their parents.  Every operation on a tree is in a module of its own below
this one. -/

namespace PrefixTally

/-- A trie of tallies per prefix, with its settings, its cache and its counters. -/
structure Tree (V : Type) (width : Nat) where
  arena : Arena V
  cache : Cache
  config : Config
  nodeCount : Nat
  inserted : Nat
  pruned : Nat

namespace Tree

variable {V : Type} {width : Nat}

/-- The tree without any add. -/
def empty [Tally V] (config : Config) : Tree V width :=
  ⟨Arena.empty, Cache.empty config.cacheSlots, config, 0, 0, 0⟩

/-- The empty tree with a budget of nodes and standard settings otherwise. -/
def ofMaxNodes [Tally V] (maxNodes : Nat) : Tree V width := empty (.ofMaxNodes maxNodes)

/-- The empty tree with the given settings, if they are valid. -/
def ofConfig [Tally V] (config : Config) : Except Refusal (Tree V width) :=
  config.validate.map empty

/-- A tree with the same nodes and counters whose cache starts anew. -/
def copy (t : Tree V width) : Tree V width := { t with cache := Cache.empty t.config.cacheSlots }

/-- The tree without any mark of change. -/
def markClean (t : Tree V width) : Tree V width := { t with arena := t.arena.clearDirty }

/-- Whether anything was added or folded since the tree was created or last marked clean. -/
def isModified (t : Tree V width) : Checked Bool := do return (← t.arena.get Arena.root).dirty

end Tree

end PrefixTally
