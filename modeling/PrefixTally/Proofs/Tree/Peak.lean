import PrefixTally.Proofs.Tree.Budget
import PrefixTally.Proofs.Tree.Changes
import PrefixTally.Tree.Stats

/-! How many slots a tree takes.  Beside a run, `nodeCounts` keeps how many nodes there were in each
state.  An arena takes free slots first and keeps those that it has, so that in every state there is
one slot for the root and one for each node of the state with the most nodes so far.  A copy starts
with the slots of its source. -/

namespace PrefixTally.Tree

variable {V : Type} [Tally V] {width w : Nat} {t : Tree V width} {L L' : Layout V} {E : Prop}

/-- The numbers of nodes before a run of operations and after each of them. -/
def nodeCounts (t : Tree V width) : List (Operation V) → Checked (List Nat)
  | [] => return [t.nodeCount]
  | op :: rest => do
    let (u, _) ← t.apply op
    return t.nodeCount :: (← u.nodeCounts rest)

/-- The most nodes that there were. -/
def peak (counts : List Nat) : Nat := counts.foldr max 0

theorem nodeCount_le_peak {ops : List (Operation V)} {counts : List Nat}
    (h : t.nodeCounts ops = .ok counts) : t.nodeCount ≤ peak counts := by
  cases ops with
  | nil =>
    obtain rfl := Except.ok.inj h
    exact Nat.le_max_left _ _
  | cons op rest =>
    obtain ⟨done, -, h⟩ := exists_of_bind h
    obtain ⟨later, -, h⟩ := exists_of_bind h
    obtain rfl := Except.ok.inj h
    exact Nat.le_max_left _ _

/-- The arena has `n` slots, and so the counters say; the total among them can overflow only if `E`
holds. -/
structure HasSlots (t : Tree V width) (E : Prop) (n : Nat) : Prop where
  arena : t.arena.slotCount = n
  stats : Ends E (fun s => s.arenaSlots = n) t.stats

/-- After an operation there are the slots from before or, if these are too few, as many as the
nodes and the root need. -/
theorem Stores.slotCount_of_apply {op : Operation V} {done : Tree V width × Reply V}
    (h : done.1.Stores L') (happly : t.apply op = .ok done) :
    done.1.arena.slotCount = max t.arena.slotCount (1 + done.1.nodeCount) := by
  have hslots := h.sound.slots
  rcases apply_slotCount happly with hsame | ⟨limited, key, x, hsame, hplace⟩
  · omega
  · -- Placing a key either fits into the slots from before, or leaves none of them free.
    have hgrows : t.arena.slotCount ≤ done.1.arena.slotCount :=
      place_lasts (Arena.lasts_slotCount_le _) (Nat.le_of_eq hsame.symm) hplace
    have htakes := place_lasts (Arena.lasts_takes limited.arena) (.refl _) hplace
    rcases htakes.slots with hkept | hfree
    · omega
    · have hfull := h.slotCount_of_free hfree
      omega

variable [Weighed V]

theorem Stores.hasSlots (h : t.Stores L) (hE : Weighed.limit V < L.weight → E) :
    t.HasSlots E t.arena.slotCount where
  arena := rfl
  stats := by
    rw [Tree.stats, h.total]
    exact ((Layout.total_ends (Nat.le_refl _)).imp hE fun _ _ hsum => hsum).bind
      fun _ _ _ => .value rfl

theorem Stores.run_slotCount (h : t.Stores L) (ops : List (Operation V))
    (hw : L.weight + (ops.map Operation.weight).sum ≤ w) :
    Ends (Weighed.limit V < w) (fun done => ∃ counts M, t.nodeCounts ops = .ok counts ∧
      done.1.Stores M ∧ M.weight ≤ w ∧
      done.1.arena.slotCount = max t.arena.slotCount (1 + peak counts)) (t.run ops) := by
  induction ops generalizing t L with
  | nil =>
    have hslots := h.sound.slots
    refine .value ⟨[t.nodeCount], L, rfl, h, Nat.le_trans (Nat.le_add_right _ _) hw, ?_⟩
    show t.arena.slotCount = max t.arena.slotCount (1 + max t.nodeCount 0)
    omega
  | cons op rest ih =>
    rw [List.map_cons, List.sum_cons] at hw
    refine (h.apply (w := w) op (by omega)).bind fun done happly hdone => ?_
    obtain ⟨M, -, hM, -, hless⟩ := hdone
    refine (ih hM (by omega)).bind fun last _ hlast => .value ?_
    obtain ⟨counts, N, hcounts, hN, hweight, hslots⟩ := hlast
    refine ⟨t.nodeCount :: counts, N, ?_, hN, hweight, ?_⟩
    · rw [nodeCounts, happly]
      show (done.1.nodeCounts rest >>= _) = _
      rw [hcounts]
      rfl
    · -- The nodes after the operation are the first of those that are counted from there on.
      have hstep := hM.slotCount_of_apply happly
      have hfirst := nodeCount_le_peak hcounts
      have hbefore := h.sound.slots
      show last.1.arena.slotCount = max t.arena.slotCount (1 + max t.nodeCount (peak counts))
      omega

theorem Starts.slotCount_eq {since : List Path} (h : t.Starts w since) :
    t.arena.slotCount = 1 + t.nodeCount := by
  cases h with
  | empty => rfl
  | entries hentries =>
    obtain ⟨L, hL, -⟩ := (ofEntries_settles _ _).of_ok hentries
    have htakes := addEntries_lasts (Arena.lasts_takes _) (.refl _) (ofEntries_eq_ok hentries).2
    rw [hL.slotCount_of_free (List.suffix_nil.mp htakes.free), Nat.add_comm]

/-- In every state of a run there is one slot for the root and one for each node of the state that
had the most nodes so far.  A copy starts with the slots of its source, and beside its own run it
has these or, if there are more, those for its own most nodes. -/
theorem run_slots_peak {since : List Path} (h : t.Starts w since) (ops : List (Operation V)) :
    Ends (Weighed.limit V < w + (ops.map Operation.weight).sum) (fun done => ∃ counts,
        t.nodeCounts ops = .ok counts ∧
        done.1.HasSlots (Weighed.limit V < w + (ops.map Operation.weight).sum) (1 + peak counts) ∧
        done.1.copy.HasSlots (Weighed.limit V < w + (ops.map Operation.weight).sum)
          (1 + peak counts) ∧
        ∀ later : List (Operation V),
          Ends (Weighed.limit V <
              w + (ops.map Operation.weight).sum + (later.map Operation.weight).sum)
            (fun last => ∃ counts', done.1.copy.nodeCounts later = .ok counts' ∧
              last.1.HasSlots (Weighed.limit V <
                  w + (ops.map Operation.weight).sum + (later.map Operation.weight).sum)
                (max (1 + peak counts) (1 + peak counts')))
            (done.1.copy.run later))
      (t.run ops) := by
  obtain ⟨L, hL, -, hless⟩ := h.stores
  refine (hL.run_slotCount ops (Nat.add_le_add_right hless _)).mono fun done hdone => ?_
  obtain ⟨counts, M, hcounts, hM, hweight, hslots⟩ := hdone
  have hpeak : done.1.arena.slotCount = 1 + peak counts := by
    have hfirst := nodeCount_le_peak hcounts
    have hstart := h.slotCount_eq
    omega
  have hhas := hM.hasSlots fun hlimit => Nat.lt_of_lt_of_le hlimit hweight
  have hcopy := hM.copy.hasSlots fun hlimit => Nat.lt_of_lt_of_le hlimit hweight
  rw [hpeak] at hhas
  refine ⟨counts, hcounts, hhas, ?_, fun later => ?_⟩
  · have hsame : done.1.copy.arena.slotCount = 1 + peak counts := hpeak
    rwa [hsame] at hcopy
  · refine (hM.copy.run_slotCount later (Nat.add_le_add_right hweight _)).mono fun last hlast => ?_
    obtain ⟨counts', N, hcounts', hN, hweight', hslots'⟩ := hlast
    have hlater : last.1.arena.slotCount = max (1 + peak counts) (1 + peak counts') := by
      rw [← hpeak]
      exact hslots'
    have hlast := hN.hasSlots fun hlimit => Nat.lt_of_lt_of_le hlimit hweight'
    rw [hlater] at hlast
    exact ⟨counts', hcounts', hlast⟩

/-- A tree with at most ten nodes keeps its eleven slots when it is pruned, and the copy grows when
it needs more than these. -/
theorem run_slots_peak_of_copy : ∃ (t : Tree (Count (.unsigned 8)) 1) (since : List Path),
    t.Starts 20 since ∧ ∃ done last,
      t.run [.add [1] ⟨3, by decide, by decide⟩, .enforceLimit 4] = .ok done ∧
      t.nodeCounts [.add [1] ⟨3, by decide, by decide⟩, .enforceLimit 4] = .ok [2, 10, 2] ∧
      done.1.arena.slotCount = 11 ∧
      done.1.copy.run [.add [1] ⟨3, by decide, by decide⟩, .add [255] ⟨3, by decide, by decide⟩] =
        .ok last ∧
      done.1.copy.nodeCounts
        [.add [1] ⟨3, by decide, by decide⟩, .add [255] ⟨3, by decide, by decide⟩] =
        .ok [2, 9, 16] ∧
      last.1.arena.slotCount = 17 := by
  have hrun : (do
      let t : Tree (Count (.unsigned 8)) 1 ←
        ofEntries ⟨100, 2, 50⟩ [⟨⟨#v[128], 2⟩, ⟨20, by decide, by decide⟩⟩]
      let ops : List (Operation (Count (.unsigned 8))) :=
        [.add [1] ⟨3, by decide, by decide⟩, .enforceLimit 4]
      let later : List (Operation (Count (.unsigned 8))) :=
        [.add [1] ⟨3, by decide, by decide⟩, .add [255] ⟨3, by decide, by decide⟩]
      let done ← (t.run ops).orStop
      let counts ← (t.nodeCounts ops).orStop
      let _ ← (done.1.copy.run later).orStop
      let counts' ← (done.1.copy.nodeCounts later).orStop
      return (counts, counts')) = .ok ([2, 10, 2], [2, 9, 16]) := by
    decide +kernel
  obtain ⟨t, hentries, hrun⟩ := exists_of_bind hrun
  obtain ⟨done, hdone, hrun⟩ := exists_of_bind hrun
  obtain ⟨counts, hcounts, hrun⟩ := exists_of_bind hrun
  obtain ⟨last, hlast, hrun⟩ := exists_of_bind hrun
  obtain ⟨counts', hcounts', hrun⟩ := exists_of_bind hrun
  obtain ⟨rfl, rfl⟩ := Prod.mk.inj (Except.ok.inj hrun)
  have hstarts := Starts.entries hentries
  have hdone := exists_of_orStop hdone
  have hcounts := exists_of_orStop hcounts
  have hlast := exists_of_orStop hlast
  have hcounts' := exists_of_orStop hcounts'
  obtain ⟨counts, hsame, hslots, -, hcopies⟩ := (run_slots_peak hstarts _).of_ok hdone
  obtain rfl := Except.ok.inj (hcounts.symm.trans hsame)
  obtain ⟨counts', hsame', hslots'⟩ := (hcopies _).of_ok hlast
  obtain rfl := Except.ok.inj (hcounts'.symm.trans hsame')
  exact ⟨t, _, hstarts, done, last, hdone, hcounts, hslots.arena, hlast, hcounts', hslots'.arena⟩

end PrefixTally.Tree
