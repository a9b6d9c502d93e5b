/-! The failures of a computation on tallies and tries.  A `Fault` is raised where an operation has
no answer: a sum that leaves the range of its type, a bit position outside a key, or a trie whose
links contradict each other.  Faults of the last sort name the link at fault; no sequence of
operations that starts from an empty tree reaches them. -/

namespace PrefixTally

/-- Why a computation stopped without an answer. -/
inductive Fault where
  /-- A sum of tallies or counters leaves the range of its type. -/
  | overflow
  /-- A bit position lies outside the bytes it refers to. -/
  | bitOutOfRange
  /-- A link names a slot that the arena does not have. -/
  | danglingSlot (slot : Nat)
  /-- A walk along links is longer than the arena. -/
  | cyclicLinks
  /-- A node without children was to be searched for one to fold. -/
  | childlessNode (slot : Nat)
  /-- A node that has children was to be folded into its parent. -/
  | innerChild (slot : Nat)
  /-- A node lies at another depth than the search for it counted. -/
  | depthMismatch (counted found : Nat)
  /-- More nodes were folded away than were counted. -/
  | countUnderflow
deriving DecidableEq

/-- A value, or the fault that prevented it. -/
abbrev Checked := Except Fault

end PrefixTally
