import PrefixTally.Bits.Interleave
import PrefixTally.Tree.Adding
import PrefixTally.Tree.Histogram
import PrefixTally.Tree.Report

/-! Pairs of addresses.  The two keys of a pair are interleaved into one key of a tree, so that
pruning shortens both of them together, a bit at a time.  A prefix of the joint key is split back
into prefixes of both keys, of which the first has the extra bit when the joint length is odd. -/

namespace PrefixTally

namespace Pair

/-- The greatest number of bytes of a key of a pair. -/
def halfBytes : Nat := 16

/-- The width of a tree of pairs. -/
def keyBytes : Nat := 2 * halfBytes

/-- A prefix of each key of a pair. -/
structure Prefixes where
  first : Bytes
  firstDepth : Nat
  second : Bytes
  secondDepth : Nat
deriving DecidableEq

/-- The joint key of a pair. -/
def join (first second : Bytes) : Except Failure Bytes := do
  if first.length ≠ second.length then
    throw (.refused (.pairLengthMismatch first.length second.length))
  if halfBytes < first.length then throw (.refused (.pairKeyTooLong first.length halfBytes))
  let key ← (Bits.interleave first second (List.replicate keyBytes 0)).orStop
  return key.take (2 * first.length)

/-- The prefixes of the two keys of a pair whose joint key starts with `depth` bits of `joint`.  All
bits of `joint` are split, those past `depth` too. -/
def split (joint : Bytes) (depth : Nat) : Checked Prefixes := do
  let blank := List.replicate halfBytes 0
  let bits := min (8 * joint.length) (8 * keyBytes)
  let (first, second) ← Bits.deinterleave joint bits blank blank
  return ⟨first, depth / 2 + depth % 2, second, depth / 2⟩

/-- An entry of a tree of pairs. -/
structure Entry (V : Type) extends Prefixes where
  value : V

namespace Entry

variable {V : Type}

/-- The line that reports an entry, without its end. -/
def text [Tally V] (e : Entry V) : String :=
  Address.text e.first e.firstDepth ++ " " ++ Address.text e.second e.secondDepth ++
    "  count=" ++ Tally.text e.value

/-- An entry as a JSON object, given the JSON of its tally. -/
def toJson (value : V → Json) (e : Entry V) : Json :=
  let bytes (b : Bytes) : Json := .array (b.map fun byte => .nat byte.toNat)
  .object [("first", bytes e.first), ("first_depth", .nat e.firstDepth),
    ("second", bytes e.second), ("second_depth", .nat e.secondDepth), ("value", value e.value)]

end Entry

end Pair

/-- A tree that tallies pairs of addresses. -/
abbrev PairTree (V : Type) := Tree V Pair.keyBytes

namespace PairTree

variable {V : Type} [Tally V]

/-- The tree with `value` added for a pair of keys of one length. -/
def addPair (t : PairTree V) (first second : Bytes) (value : V) :
    Except Failure (Step V Pair.keyBytes) := do
  let key ← Pair.join first second
  (t.add key value).orStop

/-- The tree with all values of a list added for their pairs of keys, in order, up to the first pair
that is refused. -/
def addPairs : PairTree V → List (Bytes × Bytes × V) →
    Checked (Step V Pair.keyBytes × Option Refusal)
  | t, [] => return (⟨t, []⟩, none)
  | t, (first, second, value) :: rest =>
    match t.addPair first second value with
    | .error (.refused refusal) => return (⟨t, []⟩, some refusal)
    | .error (.stopped fault) => throw fault
    | .ok ⟨t, events⟩ => do
      let (⟨t, later⟩, refusal) ← addPairs t rest
      return (⟨t, events ++ later⟩, refusal)

/-- The histogram of the tree with each prefix split into those of its two keys. -/
def pairHistogram (t : PairTree V) : Checked (List (Pair.Entry V)) := do
  (← t.histogram).mapM fun e => do
    return { ← Pair.split e.bytes.toList e.depth with value := e.value }

/-- The report of the entries of the tree as pairs. -/
def pairText (t : PairTree V) : Checked String := do
  return sizedReport t.nodeCount ((← t.pairHistogram).map Pair.Entry.text)

end PairTree

end PrefixTally
