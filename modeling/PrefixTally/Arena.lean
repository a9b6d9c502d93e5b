import PrefixTally.Bits
import PrefixTally.Tally

/-! The storage of a binary trie.  Nodes live in numbered slots and name their parent and their
children by slot.  The root has slot zero.  A slot that is given up becomes blank and goes to the
front of the free list, and a new node takes the first free slot before the arena grows, so that the
arena never has more slots than the trie once had nodes. -/

namespace PrefixTally

/-- The number of a slot in an arena. -/
abbrev SlotId := Nat

/-- A node of a trie: its links, the tally that belongs to it alone, and whether the node or one
below it changed since the marks were last cleared. -/
structure Node (V : Type) where
  parent : Option SlotId
  zero : Option SlotId
  one : Option SlotId
  value : V
  dirty : Bool

namespace Node

variable {V : Type}

/-- A node without children, tally or mark. -/
def blank [Tally V] (parent : Option SlotId) : Node V := ⟨parent, none, none, Tally.zero, false⟩

/-- The child on the side of a bit. -/
def child (n : Node V) : Bool → Option SlotId
  | false => n.zero
  | true => n.one

/-- The node with another link on the side of a bit. -/
def withChild (n : Node V) (link : Option SlotId) : Bool → Node V
  | false => { n with zero := link }
  | true => { n with one := link }

/-- Whether the node has a child. -/
@[inline] def hasChildren (n : Node V) : Bool := n.zero.isSome || n.one.isSome

/-- The number of children. -/
def childCount (n : Node V) : Nat := n.zero.isSome.toNat + n.one.isSome.toNat

/-- Whether the node holds a positive tally and has no children. -/
def isTerminal [Tally V] (n : Node V) : Bool := Tally.isPositive n.value && !n.hasChildren

end Node

/-- The slots of a trie, and those of them that hold no node, the last given up first. -/
structure Arena (V : Type) where
  slots : Array (Node V)
  free : List SlotId

namespace Arena

variable {V : Type}

/-- The slot of the root. -/
def root : SlotId := 0

/-- The arena of a trie that has only a root. -/
def empty [Tally V] : Arena V := ⟨#[Node.blank none], []⟩

/-- The number of slots, whether they hold a node or not. -/
def slotCount (a : Arena V) : Nat := a.slots.size

/-- The node in a slot. -/
@[inline] def get (a : Arena V) (id : SlotId) : Checked (Node V) :=
  match a.slots[id]? with
  | some node => .ok node
  | none => .error (.danglingSlot id)

/-- The arena with another node in a slot. -/
def put (a : Arena V) (id : SlotId) (node : Node V) : Arena V :=
  { a with slots := a.slots.setIfInBounds id node }

theorem get_eq_ok_iff {a : Arena V} {id : SlotId} {node : Node V} :
    a.get id = .ok node ↔ a.slots[id]? = some node := by
  unfold get
  split <;> simp_all

theorem get_put_self {a : Arena V} {id : SlotId} (h : id < a.slotCount) (node : Node V) :
    (a.put id node).get id = .ok node := by
  rw [get_eq_ok_iff]
  exact Array.getElem?_setIfInBounds_self_of_lt h

theorem get_put_ne {a : Arena V} {id other : SlotId} (h : id ≠ other) (node : Node V) :
    (a.put id node).get other = a.get other := by
  simp [get, put, Array.getElem?_setIfInBounds_ne h]

@[simp] theorem slotCount_put (a : Arena V) (id : SlotId) (node : Node V) :
    (a.put id node).slotCount = a.slotCount := Array.size_setIfInBounds

/-- A slot for a new child of `parent`, and the arena in which it holds a blank node. -/
def alloc [Tally V] (a : Arena V) (parent : SlotId) : SlotId × Arena V :=
  match a.free with
  | id :: free => (id, ⟨a.slots.setIfInBounds id (Node.blank (some parent)), free⟩)
  | [] => (a.slots.size, ⟨a.slots.push (Node.blank (some parent)), []⟩)

/-- The arena with a slot given up. -/
def release [Tally V] (a : Arena V) (id : SlotId) : Arena V :=
  ⟨a.slots.setIfInBounds id (Node.blank none), id :: a.free⟩

theorem get_release_self [Tally V] {a : Arena V} {id : SlotId} (h : id < a.slotCount) :
    (a.release id).get id = .ok (Node.blank none) := get_put_self h _

theorem get_release_ne [Tally V] {a : Arena V} {id other : SlotId} (h : id ≠ other) :
    (a.release id).get other = a.get other := get_put_ne h _

@[simp] theorem slotCount_release [Tally V] (a : Arena V) (id : SlotId) :
    (a.release id).slotCount = a.slotCount := Array.size_setIfInBounds

/-- The child of a node on the side of a bit, whether it had to be created, and the arena that has
it. -/
def childOrInsert [Tally V] (a : Arena V) (id : SlotId) (bit : Bool) :
    Checked (SlotId × Bool × Arena V) := do
  let node ← a.get id
  match node.child bit with
  | some child => return (child, false, a)
  | none =>
    let (child, a) := a.alloc id
    return (child, true, a.put id (node.withChild (some child) bit))

/-- The arena without the childless child of a node on the side of a bit, with the slot and the
tally of that child; nothing when there is no such child. -/
def removeLeaf [Tally V] (a : Arena V) (id : SlotId) (bit : Bool) :
    Checked (Option (SlotId × V × Arena V)) := do
  let node ← a.get id
  match node.child bit with
  | none => return none
  | some child =>
    let a := a.put id (node.withChild none bit)
    let leaf ← a.get child
    if leaf.hasChildren then throw (.innerChild child)
    return some (child, leaf.value, a.release child)

/-- The number of slots that hold a positive tally and no links to children. -/
def terminalCount [Tally V] (a : Arena V) : Nat := a.slots.countP Node.isTerminal

end Arena

end PrefixTally
