import PrefixTally.Arena

/-! Marks of change.  A node is marked when its tally grows or its children are folded into it, and
so is every node above it.  Marking stops at the first node that has its mark already, because then
every node above that one has it too. -/

namespace PrefixTally.Arena

variable {V : Type}

/-- The arena in which a node and those above it, up to the first marked one, are marked. -/
def markUp : Nat → Arena V → SlotId → Checked (Arena V)
  | 0, _, _ => throw .cyclicLinks
  | fuel + 1, a, id => do
    let node ← a.get id
    if node.dirty then return a
    let a := a.put id { node with dirty := true }
    match node.parent with
    | none => return a
    | some parent => markUp fuel a parent

/-- The arena in which a node and all those above it are marked. -/
def markDirty (a : Arena V) (id : SlotId) : Checked (Arena V) := markUp a.slotCount a id

/-- The arena without any mark. -/
def clearDirty (a : Arena V) : Arena V :=
  { a with slots := a.slots.map fun node => { node with dirty := false } }

/-- The arena with `value` added to a node's own tally and nothing marked. -/
def addOwn [Tally V] (a : Arena V) (id : SlotId) (value : V) : Checked (Arena V) := do
  let node ← a.get id
  let sum ← Tally.add node.value value
  return a.put id { node with value := sum }

/-- The arena with `value` added to a node's own tally and the node marked. -/
def add [Tally V] (a : Arena V) (id : SlotId) (value : V) : Checked (Arena V) := do
  let a ← a.addOwn id value
  a.markDirty id

end PrefixTally.Arena
