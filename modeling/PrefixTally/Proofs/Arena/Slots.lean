import PrefixTally.Arena.Marks
import PrefixTally.Arena.Path
import PrefixTally.Proofs.Outcome

/-! The number of slots.  New nodes take free slots first, so that an arena grows only when no slot
is free.  Giving up a leaf, adding and marking leave the number of slots as it is. -/

namespace PrefixTally.Arena

variable {V : Type} {a b c : Arena V} {id : SlotId}

/-- `b` has the slots of `a`, of which some free ones may be taken, and more slots only if none is
free any more. -/
structure Takes (a b : Arena V) : Prop where
  free : b.free <:+ a.free
  slots : b.slotCount = a.slotCount ∨ b.free = []

theorem Takes.of_eq (hfree : b.free = a.free) (hslots : b.slotCount = a.slotCount) : a.Takes b :=
  ⟨hfree ▸ List.suffix_refl _, .inl hslots⟩

theorem Takes.refl (a : Arena V) : a.Takes a := .of_eq rfl rfl

theorem Takes.trans (h : a.Takes b) (k : b.Takes c) : a.Takes c where
  free := k.free.trans h.free
  slots := by
    rcases k.slots with hslots | hnone
    · rcases h.slots with hslots' | hnone'
      · exact .inl (hslots.trans hslots')
      · exact .inr (List.suffix_nil.mp (hnone' ▸ k.free))
    · exact .inr hnone

/-- A property of arenas that new slots and other nodes in old slots do not change. -/
structure Lasts [Tally V] (P : Arena V → Prop) : Prop where
  alloc : ∀ b up, P b → P (b.alloc up).2
  put : ∀ b id node, P b → P (b.put id node)

/-! ### Adding -/

section Adding

variable {P : Arena V → Prop}

theorem of_markUp (hput : ∀ b id node, P b → P (b.put id node)) {n : Nat} (ha : P a)
    (h : markUp n a id = .ok b) : P b := by
  induction n generalizing a id with
  | zero => cases h
  | succ n ih =>
    obtain ⟨node, -, h⟩ := exists_of_bind h
    split at h
    · exact Except.ok.inj h ▸ ha
    · dsimp only at h
      split at h
      · exact Except.ok.inj h ▸ hput _ _ _ ha
      · exact ih (hput _ _ _ ha) h

theorem slotCount_markUp {n : Nat} (h : markUp n a id = .ok b) : b.slotCount = a.slotCount :=
  of_markUp (P := fun c => c.slotCount = a.slotCount)
    (fun _ _ _ hc => (slotCount_put _ _ _).trans hc) rfl h

variable [Tally V]

theorem of_addOwn (hput : ∀ b id node, P b → P (b.put id node)) {x : V} (ha : P a)
    (h : a.addOwn id x = .ok b) : P b := by
  obtain ⟨node, -, h⟩ := exists_of_bind h
  obtain ⟨sum, -, h⟩ := exists_of_bind h
  exact Except.ok.inj h ▸ hput _ _ _ ha

theorem slotCount_addOwn {x : V} (h : a.addOwn id x = .ok b) : b.slotCount = a.slotCount :=
  of_addOwn (P := fun c => c.slotCount = a.slotCount)
    (fun _ _ _ hc => (slotCount_put _ _ _).trans hc) rfl h

namespace Lasts

theorem add {x : V} (hP : Lasts P) (ha : P a) (h : a.add id x = .ok b) : P b := by
  obtain ⟨c, hadd, hmark⟩ := exists_of_bind h
  exact of_markUp hP.put (of_addOwn hP.put ha hadd) hmark

theorem childOrInsert {bit isNew : Bool} {s : SlotId} (hP : Lasts P) (ha : P a)
    (h : a.childOrInsert id bit = .ok (s, isNew, b)) : P b := by
  obtain ⟨node, -, h⟩ := exists_of_bind h
  split at h
  · obtain ⟨-, -, rfl⟩ := Except.ok.inj h
    exact ha
  · obtain ⟨-, -, rfl⟩ := Except.ok.inj h
    exact hP.put _ _ _ (hP.alloc a id ha)

theorem ensurePath {p : Path} {last : Reached V} (hP : Lasts P) (ha : P a)
    (h : a.ensurePath id p = .ok last) : P last.arena := by
  induction p generalizing a id last with
  | nil => exact Except.ok.inj h ▸ ha
  | cons bit rest ih =>
    obtain ⟨⟨s, isNew, b⟩, hchild, h⟩ := exists_of_bind h
    obtain ⟨next, hrest, h⟩ := exists_of_bind h
    obtain rfl := Except.ok.inj h
    have hnext := ih (hP.childOrInsert ha hchild) hrest
    exact hnext

end Lasts

/-- Free slots are taken before the arena grows. -/
theorem lasts_takes (a : Arena V) : Lasts a.Takes where
  alloc b up hb := by
    refine hb.trans ?_
    rw [alloc]
    split
    · rename_i c free hfree
      exact ⟨hfree ▸ List.suffix_cons c free, .inl Array.size_setIfInBounds⟩
    · exact ⟨List.nil_suffix, .inr rfl⟩
  put b id node hb := hb.trans (.of_eq rfl (slotCount_put _ _ _))

theorem lasts_slotCount_le (n : Nat) : Lasts fun b : Arena V => n ≤ b.slotCount where
  alloc b up hb := by
    refine Nat.le_trans hb ?_
    rw [alloc]
    split
    · exact Nat.le_of_eq Array.size_setIfInBounds.symm
    · exact Nat.le_trans (Nat.le_succ _) (Nat.le_of_eq (Array.size_push _).symm)
  put b id node hb := by rwa [slotCount_put]

end Adding

/-! ### Giving up leaves -/

theorem slotCount_removeLeaf [Tally V] {bit : Bool} {s : SlotId} {x : V}
    (h : a.removeLeaf id bit = .ok (some (s, x, b))) : b.slotCount = a.slotCount := by
  obtain ⟨node, -, h⟩ := exists_of_bind h
  split at h
  · cases Except.ok.inj h
  · obtain ⟨leaf, -, h⟩ := exists_of_bind h
    split at h
    · cases h
    · obtain ⟨-, -, rfl⟩ := Option.some.inj (Except.ok.inj h)
      exact Array.size_setIfInBounds.trans (slotCount_put _ _ _)

end PrefixTally.Arena
