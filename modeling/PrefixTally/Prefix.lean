import PrefixTally.Address
import PrefixTally.Json
import PrefixTally.Tally

/-! Prefixes of keys, and what a tree reports about them.  A `Prefix` is a key of a fixed width with
the number of its bits that count; the nodes of a tree have prefixes in which every later bit is
zero.  An `Entry` is a prefix with the tally of the adds that it alone stands for, and a `Visit` is
what a traversal sees at a node, a tally of zero included. -/

namespace PrefixTally

/-- A key of `width` bytes of which the first `depth` bits count. -/
structure Prefix (width : Nat) where
  bytes : Vector UInt8 width
  depth : Nat
deriving DecidableEq

namespace Prefix

variable {width : Nat}

/-- The prefix of the given bits, with zeros after them. -/
def ofPath (width : Nat) (path : Path) : Prefix width :=
  ⟨⟨(Bits.pack width path).toArray, by simp⟩, path.length⟩

/-- The bits of the key that count. -/
def path (p : Prefix width) : Path := (Bits.unpack p.bytes.toList).take p.depth

/-- Whether the prefix is written as an IPv4 address. -/
def isIPv4 (p : Prefix width) : Bool := Address.isIPv4 p.bytes.toList

/-- The prefix as an address with its length. -/
def text (p : Prefix width) : String := Address.text p.bytes.toList p.depth

/-- The key as a JSON array of bytes. -/
def bytesJson (p : Prefix width) : Json := .array (p.bytes.toList.map fun byte => .nat byte.toNat)

end Prefix

/-- A prefix with the tally that belongs to it and to no longer prefix of the same tree. -/
structure Entry (V : Type) (width : Nat) extends Prefix width where
  value : V

/-- What a traversal sees at a node: its prefix, its own tally and how many children it has. -/
structure Visit (V : Type) (width : Nat) extends Prefix width where
  exclusive : V
  children : Nat

/-- The entry for a visited node. -/
def Visit.entry {V : Type} {width : Nat} (v : Visit V width) : Entry V width :=
  { v.toPrefix with value := v.exclusive }

namespace Entry

variable {V : Type} {width : Nat}

/-- The line that reports an entry, without its end. -/
def text [Tally V] (e : Entry V width) : String :=
  e.toPrefix.text ++ "  count=" ++ Tally.text e.value

/-- Whether two entries agree, their tallies being compared as quantities. -/
def same [Tally V] (a b : Entry V width) : Bool :=
  a.toPrefix == b.toPrefix && Tally.same a.value b.value

/-- An entry as a JSON object, given the JSON of its tally. -/
def toJson (value : V → Json) (e : Entry V width) : Json :=
  .object [("prefix", e.bytesJson), ("depth", .nat e.depth), ("value", value e.value)]

end Entry

end PrefixTally
