import PrefixTally.Benchmark.Workload
import PrefixTally.Pair
import PrefixTally.Tally.Count
import Std.Data.HashMap

/-! The counters that a benchmark compares.  One is an exact map without a bound; the others are
trees with a budget of nodes: with a cache, without one, and one that tallies the pair of each key
and the same key backwards. -/

namespace PrefixTally.Benchmark

/-- The tallies of a benchmark. -/
abbrev Amount := Count (.unsigned 64)

/-- The counters to compare. -/
inductive IndexKind where
  | exactMap
  | tree
  | treeWithoutCache
  | pairTree
deriving DecidableEq

namespace IndexKind

/-- All kinds of counters. -/
def all : List IndexKind := [exactMap, tree, treeWithoutCache, pairTree]

/-- The name of a kind of counter. -/
def name : IndexKind → String
  | exactMap => "HashMap"
  | tree => "IpTree"
  | treeWithoutCache => "IpTreeNoCache"
  | pairTree => "PairTree"

/-- The kind of counter with a given name. -/
def ofName? (name : String) : Option IndexKind := all.find? fun k => k.name == name

/-- The kind of counter that a JSON value names. -/
def ofJson? (j : Json) : Option IndexKind := j.choice?.bind ofName?

end IndexKind

/-- The exact tally of each key. -/
abbrev Ledger := Std.HashMap Bytes Amount

/-- The ledger with `value` added for a key. -/
def Ledger.add (ledger : Ledger) (key : Bytes) (value : Amount) : Checked Ledger := do
  let sum ← Tally.add (ledger.getD key Tally.zero) value
  return ledger.insert key sum

/-- The sum of all tallies of a ledger.  No tally is negative, so its order does not matter. -/
def Ledger.total (ledger : Ledger) : Checked Amount :=
  ledger.foldM (fun sum _ value => Tally.add sum value) Tally.zero

/-- A counter with its contents. -/
inductive Index where
  | exact (ledger : Ledger)
  | single (tree : Tree Amount 4)
  | paired (tree : PairTree Amount)

namespace Index

/-- The empty counter of a kind, whose budget of nodes is `maxNodes` if it is a tree. -/
def ofKind (kind : IndexKind) (maxNodes : Nat) : Index :=
  let config := Config.ofMaxNodes maxNodes
  match kind with
  | .exactMap => exact Std.HashMap.emptyWithCapacity
  | .tree => single (Tree.empty config)
  | .treeWithoutCache => single (Tree.empty { config with cacheSlots := 0 })
  | .pairTree => paired (Tree.empty config)

/-- The counter with `value` added for a key. -/
def add (key : Bytes) (value : Amount) : Index → Except Failure Index
  | exact ledger => do return exact (← (ledger.add key value).orStop)
  | single tree => do return single (← (tree.add key value).orStop).tree
  | paired tree => do return paired (← tree.addPair key key.reverse value).tree

/-- The number of keys of a map, a tally of zero included, or of entries in the histogram of a
tree. -/
def entries : Index → Checked Nat
  | exact ledger => return ledger.size
  | single tree => do return (← tree.histogram).length
  | paired tree => do return (← tree.pairHistogram).length

/-- The sum of all tallies. -/
def total : Index → Checked Amount
  | exact ledger => ledger.total
  | single tree => tree.total
  | paired tree => tree.total

/-- The counter with all values of a list added for their keys, in order. -/
def addAll (index : Index) (adds : List (Bytes × Amount)) : Except Failure Index :=
  adds.foldlM (fun index a => index.add a.1 a.2) index

/-- The counter with one added for each key of a list. -/
def load (index : Index) (keys : List Bytes) : Except Failure Index :=
  index.addAll (keys.map fun key => (key, ⟨1, by decide, by decide⟩))

end Index

end PrefixTally.Benchmark
