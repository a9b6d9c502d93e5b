import PrefixTally.Arena

/-! Traversals of an arena.  `total` sums the tallies below a node; for tallies that round, the
order of the sum is part of its meaning: a node before its children, and all that lies on the one
side before all that lies on the zero side.  `walk` lists the nodes from the root downwards, the
zero side first, and stops at a given depth. -/

namespace PrefixTally.Arena

variable {V : Type}

/-- `sum` and after it the tallies of a node and of all nodes below it. -/
def sumFrom [Tally V] (a : Arena V) : Nat → V → SlotId → Checked V
  | 0, _, _ => throw .cyclicLinks
  | fuel + 1, sum, id => do
    let node ← a.get id
    let sum ← Tally.add sum node.value
    let sum ← match node.one with
      | some child => sumFrom a fuel sum child
      | none => pure sum
    match node.zero with
    | some child => sumFrom a fuel sum child
    | none => pure sum

/-- The sum of the tallies of a node and of all nodes below it. -/
def total [Tally V] (a : Arena V) (id : SlotId) : Checked V := a.sumFrom a.slotCount Tally.zero id

/-- A node as a traversal meets it: its bits, its own tally and how many children it has. -/
structure Stop (V : Type) where
  path : Path
  value : V
  children : Nat

/-- The nodes from `id` downwards, up to `room` levels below it; `path` leads to `id`. -/
def walk (a : Arena V) : Nat → Path → SlotId → Checked (List (Stop V))
  | 0, path, id => do
    let node ← a.get id
    return [⟨path, node.value, node.childCount⟩]
  | room + 1, path, id => do
    let node ← a.get id
    let zeros ← match node.zero with
      | some child => walk a room (path ++ [false]) child
      | none => pure []
    let ones ← match node.one with
      | some child => walk a room (path ++ [true]) child
      | none => pure []
    return ⟨path, node.value, node.childCount⟩ :: (zeros ++ ones)

end PrefixTally.Arena
