import PrefixTally.Arena.Walk
import PrefixTally.Config

/-! The tally of prefixes as a plain binary trie.  A `Trie` is a value: it has no slots, links to
parents, marks or cache, and its tallies are unbounded integers.  It is what a `Tree` represents,
and each operation on it says in terms of the trie alone what the operation of the same name does to
a tree. -/

namespace PrefixTally

/-- A binary trie of integers, or no trie. -/
inductive Trie where
  | absent
  | node (value : Int) (zero one : Trie)
deriving DecidableEq

namespace Trie

/-- The trie that has only a root. -/
def bare : Trie := node 0 absent absent

/-- Whether there is no trie. -/
def isAbsent : Trie → Bool
  | absent => true
  | node _ _ _ => false

/-- The number of nodes. -/
def nodes : Trie → Nat
  | absent => 0
  | node _ zero one => 1 + zero.nodes + one.nodes

/-- The number of nodes below the root. -/
def nodeCount (t : Trie) : Nat := t.nodes - 1

/-- The sum of all values. -/
def total : Trie → Int
  | absent => 0
  | node value zero one => value + zero.total + one.total

/-- The trie with `v` added at the end of a path, whose missing nodes are created. -/
def insert : Path → Int → Trie → Trie
  | [], v, absent => node v absent absent
  | [], v, node value zero one => node (value + v) zero one
  | false :: rest, v, absent => node 0 (insert rest v absent) absent
  | false :: rest, v, node value zero one => node value (insert rest v zero) one
  | true :: rest, v, absent => node 0 absent (insert rest v absent)
  | true :: rest, v, node value zero one => node value zero (insert rest v one)

/-- The nodes in order; `path` leads to the root. -/
def walk : Path → Trie → List (Arena.Stop Int)
  | _, absent => []
  | path, node value zero one =>
    ⟨path, value, (!zero.isAbsent).toNat + (!one.isAbsent).toNat⟩ ::
      (zero.walk (path ++ [false]) ++ one.walk (path ++ [true]))

/-! ### Pruning -/

/-- A node whose children are all childless, by its path, with its total. -/
structure Site where
  path : Path
  total : Int
deriving DecidableEq

/-- A site seen from the parent of the trie it was found in. -/
def Site.under (bit : Bool) (s : Site) : Site := ⟨bit :: s.path, s.total⟩

/-- The site to fold first of one on the zero side and one on the one side. -/
def cheaper (zero one : Site) : Site :=
  if zero.total < one.total then zero
  else if one.total < zero.total then one
  else if one.path.length < zero.path.length then zero
  else one

/-- The site to fold first, if any node has children. -/
def cheapest : Trie → Option Site
  | absent => none
  | node value zero one =>
    if zero.isAbsent && one.isAbsent then none
    else match zero.cheapest, one.cheapest with
      | none, none => some ⟨[], value + zero.total + one.total⟩
      | some s, none => some (s.under false)
      | none, some s => some (s.under true)
      | some s, some t => some (cheaper (s.under false) (t.under true))

/-- The trie in which all that lies below the node at a path is folded into that node. -/
def foldAt : Path → Trie → Trie
  | _, absent => absent
  | [], node value zero one => node (value + zero.total + one.total) absent absent
  | false :: rest, node value zero one => node value (foldAt rest zero) one
  | true :: rest, node value zero one => node value zero (foldAt rest one)

/-- One step of pruning, or nothing when only the root is left. -/
def pruneOnce (t : Trie) : Option Trie := t.cheapest.map fun s => t.foldAt s.path

/-- At most `steps` steps of pruning, until at most `target` nodes are left below the root. -/
def pruneDownTo (target : Nat) : Nat → Trie → Trie
  | 0, t => t
  | steps + 1, t =>
    if t.nodeCount ≤ target then t
    else match t.pruneOnce with
      | none => t
      | some t => pruneDownTo target steps t

/-- The trie pruned down to its share of `limit`, once it has `limit` nodes below the root. -/
def enforceLimit (config : Config) (t : Trie) (limit : Nat) : Trie :=
  if t.nodeCount < limit then t else pruneDownTo (config.pruneTarget limit) t.nodeCount t

/-- The trie with `v` added for a key that is cut to `width` bytes. -/
def add (config : Config) (width : Nat) (t : Trie) (key : Bytes) (v : Int) : Trie :=
  insert (Bits.unpack (key.take width)) v (t.enforceLimit config config.maxNodes)

end Trie

end PrefixTally
