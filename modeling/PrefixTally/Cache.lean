import PrefixTally.Arena

/-! The lookup cache of a tree.  It remembers the slots of the keys that were looked for last, in a
fixed number of places that are filled in turn, and counts how often a key was found.  A slot that
is given up must be forgotten first, because its number will be used for another node. -/

namespace PrefixTally

/-- A cache: its places, the place to fill next, and the counts of keys found and not found. -/
structure Cache where
  places : Array (Option (Bytes × SlotId))
  next : Nat
  hits : Nat
  misses : Nat

namespace Cache

/-- A cache in which nothing was looked for. -/
def empty (size : Nat) : Cache := ⟨Array.replicate size none, 0, 0, 0⟩

/-- The slot remembered for a key, from the first place that has the key. -/
def find? (c : Cache) (key : Bytes) : Option SlotId :=
  c.places.findSome? fun
    | some (held, slot) => if held = key then some slot else none
    | none => none

/-- The slot remembered for a key, and the cache that has counted the question. -/
def lookup (c : Cache) (key : Bytes) : Option SlotId × Cache :=
  match c.find? key with
  | some slot => (some slot, { c with hits := c.hits + 1 })
  | none => (none, { c with misses := c.misses + 1 })

/-- The cache that remembers a key in the next place; a cache without places remembers nothing. -/
def insert (c : Cache) (key : Bytes) (slot : SlotId) : Cache :=
  if c.places.isEmpty then c
  else { c with
    places := c.places.setIfInBounds c.next (some (key, slot))
    next := (c.next + 1) % c.places.size }

/-- The cache that has forgotten a slot. -/
def invalidate (c : Cache) (slot : SlotId) : Cache :=
  { c with places := c.places.map fun
      | some (key, held) => if held = slot then none else some (key, held)
      | none => none }

end Cache

end PrefixTally
