import PrefixTally.Arena.Walk

/-! The choice of the node to fold.  Folding takes the children of a node away and adds their
tallies to it, so only a node whose children are all childless can be folded.  `findFold` compares
the two sides of each node from the bottom upwards: the smaller total is folded first, of equal
totals the deeper node, and of equally deep nodes the one on the one side. -/

namespace PrefixTally.Arena

variable {V : Type}

/-- A node whose children are all childless, and its depth. -/
structure FoldSite where
  slot : SlotId
  depth : Nat
deriving DecidableEq

/-- A child that has children of its own. -/
@[inline] def innerChild (a : Arena V) : Option SlotId → Checked (Option SlotId)
  | none => return none
  | some child => do
    let node ← a.get child
    return if node.hasChildren then some child else none

/-- The one of two nodes to fold first, one on the zero side and one on the one side. -/
def cheaper [Tally V] (a : Arena V) (zeroSite oneSite : FoldSite) : Checked FoldSite := do
  let zeroTotal ← a.total zeroSite.slot
  let oneTotal ← a.total oneSite.slot
  return if Tally.less zeroTotal oneTotal then zeroSite
    else if Tally.less oneTotal zeroTotal then oneSite
    else if oneSite.depth < zeroSite.depth then zeroSite
    else oneSite

/-- The node to fold first at or below `id`, which lies at `depth` and has children. -/
def findFold [Tally V] (a : Arena V) : Nat → SlotId → Nat → Checked FoldSite
  | 0, _, _ => throw .cyclicLinks
  | fuel + 1, id, depth => do
    let node ← a.get id
    if !node.hasChildren then throw (.childlessNode id)
    match ← a.innerChild node.zero, ← a.innerChild node.one with
    | none, none => return ⟨id, depth⟩
    | some child, none => findFold a fuel child (depth + 1)
    | none, some child => findFold a fuel child (depth + 1)
    | some zeroChild, some oneChild =>
      let zeroSite ← findFold a fuel zeroChild (depth + 1)
      let oneSite ← findFold a fuel oneChild (depth + 1)
      a.cheaper zeroSite oneSite

/-- The node of the whole trie to fold first, or nothing when the root has no children. -/
def cheapest [Tally V] (a : Arena V) : Checked (Option FoldSite) := do
  let node ← a.get root
  if node.hasChildren then return some (← a.findFold a.slotCount root 0)
  else return none

end PrefixTally.Arena
