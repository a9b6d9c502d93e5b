import PrefixTally.Cache
import PrefixTally.Proofs.Layout

/-! What a cache remembers.  A cache follows a layout when each key that it remembers is the path of
the node in the remembered slot.  A cache that forgets a slot, or notes the slot of a key, goes on
following. -/

namespace PrefixTally.Cache

variable {V : Type}

/-- The cache that has forgotten a slot, if there is one. -/
def forget (c : Cache) : Option SlotId → Cache
  | none => c
  | some s => c.invalidate s

/-- The cache after a key was looked for and turned out to belong to a slot. -/
def noted (c : Cache) (key : Bytes) (s : SlotId) : Cache :=
  match c.lookup key with
  | (some _, c) => c
  | (none, c) => c.insert key s

/-- Every remembered slot holds the node of its key. -/
def Follows (c : Cache) (L : Layout V) : Prop :=
  ∀ key s, some (key, s) ∈ c.places → L.slotAt (Bits.unpack key) = some s

theorem mem_of_find? {c : Cache} {key : Bytes} {s : SlotId} (h : c.find? key = some s) :
    some (key, s) ∈ c.places := by
  obtain ⟨place, hmem, hplace⟩ := Array.exists_of_findSome?_eq_some h
  match place with
  | none => cases hplace
  | some (held, t) =>
    simp only [Option.ite_none_right_eq_some, Option.some.injEq] at hplace
    obtain ⟨rfl, rfl⟩ := hplace
    exact hmem

theorem mem_insert {c : Cache} {key other : Bytes} {s t : SlotId}
    (h : some (other, t) ∈ (c.insert key s).places) :
    other = key ∧ t = s ∨ some (other, t) ∈ c.places := by
  unfold insert at h
  split at h
  · exact .inr h
  · rcases Array.mem_or_eq_of_mem_setIfInBounds h with h | h
    · exact .inr h
    · cases h
      exact .inl ⟨rfl, rfl⟩

theorem mem_forget {c : Cache} {gone : Option SlotId} {key : Bytes} {s : SlotId}
    (h : some (key, s) ∈ (c.forget gone).places) :
    gone ≠ some s ∧ some (key, s) ∈ c.places := by
  cases gone with
  | none => exact ⟨nofun, h⟩
  | some t =>
    obtain ⟨place, hmem, hplace⟩ := Array.mem_map.mp h
    match place with
    | none => cases hplace
    | some (held, u) =>
      by_cases hu : u = t
      · simp only [hu, if_true] at hplace
        cases hplace
      · simp only [hu, if_false] at hplace
        cases hplace
        exact ⟨fun he => hu (Option.some.inj he).symm, hmem⟩

/-- A cache goes on following when the nodes that it remembers stay where they are. -/
theorem Follows.mono {c d : Cache} {L L' : Layout V} (h : c.Follows L)
    (hd : ∀ key s, some (key, s) ∈ d.places → some (key, s) ∈ c.places ∧
      (L.slotAt (Bits.unpack key) = some s → L'.slotAt (Bits.unpack key) = some s)) :
    d.Follows L' := fun key s hmem =>
  (hd key s hmem).2 (h key s (hd key s hmem).1)

theorem Follows.insert {c : Cache} {L : Layout V} {key : Bytes} {s : SlotId} (h : c.Follows L)
    (hs : L.slotAt (Bits.unpack key) = some s) : (c.insert key s).Follows L := by
  intro other t hmem
  rcases mem_insert hmem with ⟨rfl, rfl⟩ | hold
  · exact hs
  · exact h other t hold

theorem Follows.noted {c : Cache} {L : Layout V} {key : Bytes} {s : SlotId} (h : c.Follows L)
    (hs : L.slotAt (Bits.unpack key) = some s) : (c.noted key s).Follows L := by
  rw [Cache.noted, lookup]
  cases c.find? key with
  | some t => exact h
  | none => exact Follows.insert (c := { c with misses := c.misses + 1 }) h hs

theorem follows_empty (size : Nat) (L : Layout V) : (empty size).Follows L := by
  intro key s hmem
  simp [empty] at hmem

end PrefixTally.Cache
