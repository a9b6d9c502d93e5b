import PrefixTally.Proofs.Arena.Sound
import PrefixTally.Proofs.Tree.Operation

/-! Safety.  Every tree that is reached is sound: the links of its arena, its free list and its
counters agree with each other.  No operation on such a tree meets a contradiction; the only fault
is a sum that overflows, for which more must have been added than the tallies have room for. -/

namespace PrefixTally.Tree

variable {V : Type} [Tally V] {width : Nat} {t : Tree V width} {L : Layout V}

/-- The arena is sound, and the counters count its nodes. -/
structure Sound (t : Tree V width) : Prop where
  arena : t.arena.Sound (8 * width)
  slots : t.arena.slotCount = 1 + t.nodeCount + t.arena.free.length
  counters : t.inserted = t.pruned + t.nodeCount

theorem Stores.sound (h : t.Stores L) : t.Sound where
  arena := h.holds.sound h.root h.depth
  slots := by
    have hlength := h.holds.fill.length_eq
    have hcounted := h.counted
    rw [List.length_range, List.length_append, List.append_nil, Layout.length_slots] at hlength
    omega
  counters := h.balanced

variable [Weighed V] {w : Nat}

/-- What can be asked of a tree to which tallies of weight `w` were added has an answer, unless the
tallies overflow, and what can be done with it leaves a sound tree. -/
structure Safe (t : Tree V width) (w : Nat) : Prop where
  apply (op : Operation V) :
    Ends (Weighed.limit V < w + op.weight) (fun done => done.1.Sound) (t.apply op)
  candidate : Ends (Weighed.limit V < w) (fun _ => True) t.candidate
  total : Ends (Weighed.limit V < w) (fun _ => True) t.total
  visits : ∃ visits, t.visits = .ok visits
  histogram : ∃ entries, t.histogram = .ok entries
  isModified : ∃ marked, t.isModified = .ok marked

theorem Stores.safe (h : t.Stores L) (hw : L.weight ≤ w) : t.Safe w where
  apply op := (h.apply op (Nat.add_le_add_right hw _)).mono fun _ hdone =>
    let ⟨_, _, hL', _⟩ := hdone
    hL'.sound
  candidate := by
    rw [h.candidate]
    split
    · rename_i hL
      refine (Layout.choice_ends hL hw).bind fun p _ _ => ?_
      have hsub := Nat.le_trans (Layout.weight_sub_le L p) hw
      exact (Layout.total_ends hsub).bind fun _ _ _ => .value trivial
    · exact .value trivial
  total := by
    rw [h.total]
    exact (Layout.total_ends hw).mono fun _ _ => trivial
  visits := ⟨_, h.visits⟩
  histogram := ⟨_, h.histogram⟩
  isModified := ⟨_, h.isModified⟩

/-- A tree is sound when it starts and after every operation, and no operation on it meets a fault
other than an overflow. -/
theorem reached_sound_safe : (∀ (config : Config) (entries : List (Entry V width)),
      Settles (Weighed.limit V < (entries.map fun e => Weighed.weight e.value).sum)
        Tree.Sound (ofEntries config entries)) ∧
    ∀ (w : Nat) (t : Tree V width), t.Reached w → t.Sound ∧ t.Safe w := by
  constructor
  · intro config entries
    refine (ofEntries_settles config entries).mono fun t ht => ?_
    obtain ⟨L, hL, -, -⟩ := ht
    exact hL.sound
  · intro w t h
    obtain ⟨L, hL, hless⟩ := h.stores
    exact ⟨hL.sound, hL.safe hless⟩

/-- A tree of which nodes were folded away twice: the slots of the first fold are taken again, and
those of the second are free. -/
theorem reached_sound_safe_of_reuse : ∃ t : Tree (Count (.unsigned 8)) 1,
    t.arena.slotCount = 9 ∧ t.arena.free.length = 3 ∧ t.nodeCount = 5 ∧ t.inserted = 13 ∧
      t.pruned = 8 ∧ t.Reached 12 ∧ t.Sound ∧ t.Safe 12 := by
  have hrun : (do
      let (t, _) ← (empty .standard : Tree (Count (.unsigned 8)) 1).run
        [.add [1] ⟨5, by decide, by decide⟩, .enforceLimit 4, .add [16] ⟨7, by decide, by decide⟩,
          .enforceLimit 6]
      return (t.arena.slotCount, t.arena.free.length, t.nodeCount, t.inserted, t.pruned)) =
        .ok (9, 3, 5, 13, 8) := by
    decide +kernel
  obtain ⟨⟨t, replies⟩, hrun, hcounts⟩ := exists_of_bind hrun
  have hreached : t.Reached 12 := (Reached.empty (by decide)).run hrun
  simp only [pure, Except.pure, Except.ok.injEq, Prod.mk.injEq] at hcounts
  obtain ⟨hslots, hfree, hcount, hinserted, hpruned⟩ := hcounts
  exact ⟨t, hslots, hfree, hcount, hinserted, hpruned, hreached,
    reached_sound_safe.2 12 t hreached⟩

end PrefixTally.Tree
