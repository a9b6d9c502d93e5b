import PrefixTally.Proofs.Tree.Candidate
import PrefixTally.Proofs.Tree.Rebuilding
import PrefixTally.Proofs.Trie.Total

/-! Pruning to a limit.  A tree that has reached a limit is pruned down to a target, which is not
above the limit, by the least number of steps that brings it there.  A step folds one node or two
away, so the tree ends with as many nodes as the target says, or with one less.  There is always a
node to fold on the way, and the same limit asked for again changes nothing.  A limit of zero leaves
the root alone, with the sum of all values. -/

namespace PrefixTally.Tree

/-! ### Steps -/

section Steps

variable {V : Type} [Tally V] {width k n limit target : Nat} {t : Tree V width}
  {first last : Step V width}

/-- `last` is what `k` steps of pruning make of the tree, each of which finds a node to fold, and no
smaller number of steps leaves at most `target` nodes. -/
structure LandsAfter (t : Tree V width) (target k : Nat) (last : Step V width) : Prop where
  steps : t.pruneTimes k = .ok (k, last)
  reached : last.tree.nodeCount ≤ target
  least : ∀ j < k, ∃ before, t.pruneTimes j = .ok (j, before) ∧ target < before.tree.nodeCount

theorem pruneTimes_succ (hfirst : t.pruneOnce = .ok (some first))
    (hlast : first.tree.pruneTimes k = .ok (n, last)) :
    t.pruneTimes (k + 1) = .ok (n + 1, ⟨last.tree, first.events ++ last.events⟩) := by
  rw [pruneTimes, hfirst]
  show (first.tree.pruneTimes k >>= _) = _
  rw [hlast]
  rfl

theorem LandsAfter.stop (h : t.nodeCount ≤ target) : t.LandsAfter target 0 ⟨t, []⟩ :=
  ⟨rfl, h, nofun⟩

theorem LandsAfter.step (hmore : target < t.nodeCount) (hfirst : t.pruneOnce = .ok (some first))
    (h : first.tree.LandsAfter target k last) :
    t.LandsAfter target (k + 1) ⟨last.tree, first.events ++ last.events⟩ where
  steps := pruneTimes_succ hfirst h.steps
  reached := h.reached
  least j hj := by
    cases j with
    | zero => exact ⟨⟨t, []⟩, rfl, hmore⟩
    | succ j =>
      obtain ⟨before, hbefore, hleft⟩ := h.least j (Nat.lt_of_succ_lt_succ hj)
      exact ⟨_, pruneTimes_succ hfirst hbefore, hleft⟩

theorem pruneDownTo_of_le (h : t.nodeCount ≤ target) (n : Nat) :
    t.pruneDownTo target n = .ok ⟨t, []⟩ := by
  cases n with
  | zero => rfl
  | succ n =>
    rw [pruneDownTo, if_pos h]
    rfl

theorem enforceLimit_fixes (h : t.nodeCount < limit ∨ t.nodeCount ≤ t.config.pruneTarget limit) :
    ∃ events, t.enforceLimit limit = .ok ⟨t, events⟩ := by
  simp only [enforceLimit]
  split
  · exact ⟨_, rfl⟩
  · rename_i hreached
    rw [pruneDownTo_of_le (h.resolve_left hreached)]
    exact ⟨_, rfl⟩

theorem enforceLimit_eq_ok (h : t.enforceLimit limit = .ok last) (hlimit : limit ≤ t.nodeCount) :
    ∃ landed, t.pruneDownTo (t.config.pruneTarget limit) t.nodeCount = .ok landed ∧
      last = ⟨landed.tree,
        .limitReached t.nodeCount limit (t.config.pruneTarget limit) :: landed.events⟩ := by
  rw [enforceLimit, if_neg (Nat.not_lt.mpr hlimit)] at h
  obtain ⟨landed, hlanded, h⟩ := exists_of_bind h
  exact ⟨landed, hlanded, (Except.ok.inj h).symm⟩

variable [Weighed V] {L : Layout V} {w : Nat}

theorem Stores.landsAfter (h : t.Stores L) (hw : L.weight ≤ w) (hn : t.nodeCount ≤ n) :
    Ends (Weighed.limit V < w) (fun last => ∃ k, t.LandsAfter target k last)
      (t.pruneDownTo target n) := by
  induction n generalizing t L with
  | zero => exact .value ⟨0, .stop (by omega)⟩
  | succ n ih =>
    have hcounted := h.counted
    rw [Tree.pruneDownTo]
    split
    · rename_i hle
      exact .value ⟨0, .stop hle⟩
    · rename_i hmore
      refine (h.pruneOnce (Layout.isInner_of_size (by omega)) hw).bind fun found hfound hstep => ?_
      obtain ⟨first, M, rfl, honce, hM, -, hweight⟩ := hstep
      -- The step has taken a node away, so one round less is enough for the rest.
      have hless := honce.size_lt
      have hcountedM := hM.counted
      refine (ih hM (Nat.le_trans hweight hw) (by omega)).bind fun last _ hlast => ?_
      obtain ⟨k, hlands⟩ := hlast
      exact .value ⟨k + 1, .step (Nat.not_le.mp hmore) hfound hlands⟩

end Steps

/-! ### The limit -/

variable {range : IntRange} {width limit w : Nat} {t : Tree (Count range) width}
  {L : Layout (Count range)}

/-- What pruning to a limit makes of a tree, given the target for the limit. -/
structure Enforced (t : Tree (Count range) width) (limit target : Nat)
    (step : Step (Count range) width) : Prop where
  below : t.nodeCount < limit → step = ⟨t, []⟩
  lands : limit ≤ t.nodeCount → ∃ k last, t.LandsAfter target k last ∧
    step = ⟨last.tree, .limitReached t.nodeCount limit target :: last.events⟩
  /-- Something that was above the target does not fall further below it than one node. -/
  near : limit ≤ t.nodeCount → target < t.nodeCount →
    step.tree.nodeCount = target ∨ step.tree.nodeCount + 1 = target
  never : ∀ n m, .nothingLeft n m ∉ step.events
  again : ∃ events, step.tree.enforceLimit limit = .ok ⟨step.tree, events⟩
  /-- Without any room only the root is left, with the sum of all values. -/
  bare : limit = 0 → ∃ v visits, step.tree.visits = .ok [⟨Prefix.ofPath width [], v, 0⟩] ∧
    t.visits = .ok visits ∧ v.val = (visits.map fun u => u.exclusive.val).sum

/-- The values that a traversal meets sum to the total of the trie. -/
theorem Stores.sum_visits (h : t.Stores L) : ∃ visits, t.visits = .ok visits ∧
    (visits.map fun v => v.exclusive.val).sum = L.trie.total := by
  refine ⟨_, h.visits, ?_⟩
  rw [← Trie.sum_walk [] L.trie, ← Layout.stops_trie, List.map_map, List.map_map]
  rfl

theorem Stores.visits_of_bare (h : t.Stores L) (hcount : t.nodeCount = 0) : ∃ v,
    t.visits = .ok [⟨Prefix.ofPath width [], v, 0⟩] ∧ v.val = L.trie.total := by
  have hcounted := h.counted
  have hleaf : L.isInner = false := by
    rw [← Bool.not_eq_true, Layout.isInner_iff h.root]
    omega
  obtain ⟨v, d, z, o, rfl⟩ := Layout.slot?_eq_some_iff.mp h.root
  have htotal := Layout.total_trie_leaf hleaf
  rcases Layout.eq_of_not_isInner hleaf with hnone | ⟨_, _, _, hnode⟩
  · cases hnone
  · cases hnode
    exact ⟨v, h.visits, htotal.symm⟩

theorem Stores.enforced (h : t.Stores L) (hw : L.weight ≤ w) (hvalid : t.config.Valid)
    (limit : Nat) :
    Ends (range.reach < w) (t.Enforced limit (t.config.pruneTarget limit))
      (t.enforceLimit limit) := by
  refine (h.enforceLimit hw limit).imp id fun step hstep hlast => ?_
  obtain ⟨L', henforces, hL', hkeeps, -⟩ := hlast
  have hcounted := h.counted
  have hcounted' := hL'.counted
  refine ⟨fun hbelow => ?_, fun hlimit => ?_, fun hlimit hmore => ?_,
    henforces.nothingLeft_not_mem, ?_, fun hzero => ?_⟩
  · rw [Tree.enforceLimit, if_pos hbelow] at hstep
    exact (Except.ok.inj hstep).symm
  · obtain ⟨landed, hlanded, hsame⟩ := enforceLimit_eq_ok hstep hlimit
    obtain ⟨k, hlands⟩ := (h.landsAfter hw (Nat.le_refl _)).of_ok hlanded
    exact ⟨k, landed, hlands, hsame⟩
  · have hnear := henforces.size_near (by omega) (by omega)
    omega
  · have hrests := henforces.rests
    exact enforceLimit_fixes (by rw [hkeeps.config]; omega)
  · -- The target for no room is zero, and every fold keeps the total.
    have hnone : step.tree.nodeCount = 0 := by
      have hsize := henforces.size_le hvalid
      omega
    have htotal : L'.trie.total = L.trie.total := by
      rw [← henforces.trie_eq (by omega), Trie.total_enforceLimit]
    obtain ⟨v, hroot, hv⟩ := hL'.visits_of_bare hnone
    obtain ⟨visits, hvisits, hsum⟩ := h.sum_visits
    exact ⟨v, visits, hroot, hvisits, by rw [hv, htotal, hsum]⟩

/-- Pruning to a limit ends at its target, by the least number of steps, and does nothing when it is
asked for once more. -/
theorem reached_enforceLimit_lands (h : t.Reached w) (limit : Nat) :
    min (limit * t.config.prunePercent) wordMax / 100 ≤ limit ∧
    Ends (range.reach < w)
      (t.Enforced limit (min (limit * t.config.prunePercent) wordMax / 100))
      (t.enforceLimit limit) := by
  obtain ⟨L, hL, hless⟩ := h.stores
  exact ⟨Config.pruneTarget_le h.valid limit, hL.enforced hless h.valid limit⟩

/-- Of nine nodes the first step folds two away, which leaves one node less than the target. -/
theorem reached_enforceLimit_lands_of_pair : ∃ t : Tree (Count (.unsigned 8)) 1, t.Reached 5 ∧
    t.nodeCount = 9 ∧ ∃ step, t.enforceLimit 9 = .ok step ∧ step.tree.nodeCount = 7 ∧
      t.Enforced 9 8 step := by
  have hrun : ∃ done, (empty .standard : Tree (Count (.unsigned 8)) 1).run
      [.add [0] ⟨2, by decide, by decide⟩, .add [1] ⟨3, by decide, by decide⟩] = .ok done ∧
      done.1.nodeCount = 9 ∧ done.1.config.prunePercent = 90 ∧
      ∃ step, done.1.enforceLimit 9 = .ok step ∧ step.tree.nodeCount = 7 :=
    ⟨_, rfl, rfl, rfl, _, rfl, rfl⟩
  obtain ⟨⟨t, replies⟩, hrun, hcount, hpercent, step, hstep, hleft⟩ := hrun
  have hreached : t.Reached 5 := (Reached.empty (by decide)).run hrun
  have henforced := (reached_enforceLimit_lands hreached 9).2.of_ok hstep
  rw [hpercent] at henforced
  exact ⟨t, hreached, hcount, step, hstep, hleft, henforced⟩

end PrefixTally.Tree
