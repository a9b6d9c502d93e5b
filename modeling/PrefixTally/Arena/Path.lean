import PrefixTally.Arena

/-! Paths through an arena.  `ensurePath` walks down from a node along given bits and creates what
is missing; `pathTo` reads the bits of a node off the links to its parents.  A walk upwards stops
after as many steps as there are slots. -/

namespace PrefixTally.Arena

variable {V : Type}

/-- The end of a walk: the slot reached, the number of nodes that had to be created, and the arena
that has them. -/
structure Reached (V : Type) where
  slot : SlotId
  created : Nat
  arena : Arena V

/-- The node that lies below `id` along the given bits. -/
def ensurePath [Tally V] (a : Arena V) (id : SlotId) : Path → Checked (Reached V)
  | [] => return ⟨id, 0, a⟩
  | bit :: rest => do
    let (child, isNew, a) ← a.childOrInsert id bit
    let last ← a.ensurePath child rest
    return { last with created := last.created + isNew.toNat }

/-- The bits that lead from the root to `id`, before the bits `below`. -/
def climb (a : Arena V) : Nat → SlotId → Path → Checked Path
  | 0, _, _ => throw .cyclicLinks
  | fuel + 1, id, below => do
    let node ← a.get id
    match node.parent with
    | none => return below
    | some parent =>
      let up ← a.get parent
      climb a fuel parent ((up.one == some id) :: below)

/-- The bits that lead from the root to a node. -/
def pathTo (a : Arena V) (id : SlotId) : Checked Path := a.climb a.slotCount id []

end PrefixTally.Arena
