import PrefixTally.Proofs.Tree.Conservation
import PrefixTally.Proofs.Tree.Enforcing
import PrefixTally.Proofs.Trie.Greedy

/-! Greedy pruning.  Without signs the nodes that consecutive steps of pruning fold have totals that
never decrease, and no node that can still be folded afterwards has a smaller total than any of
them.  It is enough that one step leaves no node to fold that is worth less than the one it folded:
a bound on all nodes that can be folded is kept by every later step. -/

namespace PrefixTally

variable {range : IntRange}

namespace Layout

variable {L L' : Layout (Count range)} {p : Path}

theorem exists_total_of_foldAt {s : SlotId} (hlo : range.lo = 0) (h : L.foldAt p = .ok L')
    (hs : L.slotAt p = some s) (htwig : (L.sub p).IsTwig) : ∃ c, (L.sub p).total = .ok c := by
  obtain ⟨v, d, z, o, y, -, hy, -⟩ := foldAt_twig_eq_ok h hs htwig
  -- The folded node holds the whole total, so the total is in range.
  have hle := y.le_hi
  obtain ⟨c, hc, -⟩ := (total_ends_exact hlo (L.sub p)).exists_ok (by omega)
  exact ⟨c, hc⟩

end Layout

namespace Tree

variable {width w : Nat} {t u : Tree (Count range) width} {L : Layout (Count range)}
  {c : Candidate (Count range) width} {cs : List (Candidate (Count range) width)}
  {first last : Step (Count range) width}

/-- Consecutive steps of pruning fold the given candidates, in order. -/
inductive Collapses : Tree (Count range) width → List (Candidate (Count range) width) →
    Step (Count range) width → Prop
  | nil (t : Tree (Count range) width) : Collapses t [] ⟨t, []⟩
  | cons {t : Tree (Count range) width} {c : Candidate (Count range) width}
      {cs : List (Candidate (Count range) width)} {first last : Step (Count range) width} :
      t.candidate = .ok (some c) → t.pruneOnce = .ok (some first) → Collapses first.tree cs last →
      Collapses t (c :: cs) ⟨last.tree, first.events ++ last.events⟩

/-- The totals of the candidates do not decrease, and no node of `u` that can be folded has a smaller
total than one of them. -/
structure Ascends (cs : List (Candidate (Count range) width)) (u : Tree (Count range) width) :
    Prop where
  ordered : cs.Pairwise fun a b => a.total.val ≤ b.total.val
  least : ∀ p n, u.Foldable p n → ∀ c ∈ cs, c.total.val ≤ n

/-- A step of pruning folds the candidate, and leaves no node to fold with a smaller total. -/
theorem Stores.collapse (hlo : range.lo = 0) (h : t.Stores L)
    (hfirst : t.pruneOnce = .ok (some first)) :
    ∃ c L', t.candidate = .ok (some c) ∧ t.Foldable c.path c.total.val ∧ first.tree.Stores L' ∧
      ∀ p n, first.tree.Foldable p n → c.total.val ≤ n := by
  obtain ⟨u, events⟩ := first
  obtain ⟨L', honce, hL', -⟩ := h.found hfirst
  obtain ⟨hinner, hchoice, hs, htwig, hfold⟩ := honce
  rename_i p s
  obtain ⟨c, hc⟩ := Layout.exists_total_of_foldAt hlo hfold hs htwig
  have hcandidate : t.candidate = .ok (some { Prefix.ofPath width p with total := c }) := by
    rw [h.candidate, if_pos hinner, hchoice, ok_bind, hc]
    rfl
  refine ⟨_, L', hcandidate, (h.best hinner hchoice hc).foldable, hL', fun q n hq => ?_⟩
  obtain ⟨hqtwig, rfl⟩ := hL'.foldable_iff.mp hq
  have hsite := Layout.hasSite_of_isTwig hqtwig
  rw [Layout.trie_foldAt hfold hs htwig] at hsite
  show c.val ≤ _
  rw [Layout.total_trie hc]
  exact (Layout.choice_first hinner hchoice).total_le_of_foldAt (Layout.nonneg_trie hlo L) hsite

theorem Stores.pruneTimes (hlo : range.lo = 0) (h : t.Stores L) (hw : L.weight ≤ w) (n : Nat) :
    Ends (range.reach < w) (fun done => ∃ cs, cs.length = done.1 ∧ t.Collapses cs done.2)
      (t.pruneTimes n) := by
  induction n generalizing t L with
  | zero => exact .value ⟨[], rfl, .nil t⟩
  | succ n ih =>
    rw [Tree.pruneTimes]
    cases hL : L.isInner with
    | false =>
      rw [h.pruneOnce_none hL]
      exact .value ⟨[], rfl, .nil t⟩
    | true =>
      refine (h.pruneOnce hL hw).bind fun found hfound hstep => ?_
      obtain ⟨first, M, rfl, -, hM, -, hweight⟩ := hstep
      obtain ⟨c, -, hcandidate, -⟩ := h.collapse hlo hfound
      refine (ih hM (Nat.le_trans hweight hw)).bind fun done _ hdone => ?_
      obtain ⟨cs, hlength, hcs⟩ := hdone
      exact .value ⟨c :: cs, congrArg (· + 1) hlength, .cons hcandidate hfound hcs⟩

/-- Steps of pruning keep a bound on the totals of the nodes that can be folded, and so no candidate
is below it. -/
theorem Collapses.bounded {b : Int} (hlo : range.lo = 0) (h : t.Collapses cs last)
    (hL : t.Stores L) (hb : ∀ p n, t.Foldable p n → b ≤ n) :
    (∀ c ∈ cs, b ≤ c.total.val) ∧ ∀ p n, last.tree.Foldable p n → b ≤ n := by
  induction h generalizing L with
  | nil t => exact ⟨nofun, hb⟩
  | cons hcandidate hfirst _ ih =>
    obtain ⟨c, L', hc, hfoldable, hL', hless⟩ := hL.collapse hlo hfirst
    obtain rfl := Option.some.inj (Except.ok.inj (hcandidate.symm.trans hc))
    -- The candidate could be folded, so the bound holds for it, and what is left is not below it.
    have hbc := hb _ _ hfoldable
    have hrest := ih hL' fun p n hp => Int.le_trans hbc (hless p n hp)
    exact ⟨List.forall_mem_cons.mpr ⟨hbc, hrest.1⟩, hrest.2⟩

theorem Collapses.ascends (hlo : range.lo = 0) (h : t.Collapses cs last) (hL : t.Stores L) :
    Ascends cs last.tree := by
  induction h generalizing L with
  | nil t => exact ⟨.nil, fun _ _ _ => nofun⟩
  | cons hcandidate hfirst hrest ih =>
    obtain ⟨c, L', hc, -, hL', hless⟩ := hL.collapse hlo hfirst
    obtain rfl := Option.some.inj (Except.ok.inj (hcandidate.symm.trans hc))
    have hlater := hrest.bounded hlo hL' hless
    have hascends := ih hL'
    exact ⟨.cons hlater.1 hascends.ordered, fun p n hp =>
      List.forall_mem_cons.mpr ⟨hlater.2 p n hp, hascends.least p n hp⟩⟩

theorem Stores.enforceLimit_collapses (hlo : range.lo = 0) (h : t.Stores L) (hw : L.weight ≤ w)
    (limit : Nat) :
    Ends (range.reach < w) (fun step => ∃ cs last, t.Collapses cs last ∧ step.tree = last.tree ∧
      (step.events = last.events ∨
        ∃ n target, step.events = .limitReached n limit target :: last.events))
      (t.enforceLimit limit) := by
  refine (h.enforceLimit hw limit).imp id fun step hstep _ => ?_
  by_cases hbelow : t.nodeCount < limit
  · rw [Tree.enforceLimit, if_pos hbelow] at hstep
    obtain rfl := Except.ok.inj hstep
    exact ⟨[], _, .nil t, rfl, .inl rfl⟩
  · obtain ⟨landed, hlanded, rfl⟩ := enforceLimit_eq_ok hstep (Nat.not_lt.mp hbelow)
    obtain ⟨k, hlands⟩ := (h.landsAfter hw (Nat.le_refl _)).of_ok hlanded
    obtain ⟨cs, -, hcs⟩ := (h.pruneTimes hlo hw k).of_ok hlands.steps
    exact ⟨cs, landed, hcs, rfl, .inr ⟨_, _, rfl⟩⟩

/-- Without signs any number of steps of pruning fold candidates whose totals never decrease, and
leave no node to fold that is worth less than one of them.  So does pruning to a limit. -/
theorem reached_prunes_ascending (hlo : range.lo = 0) (h : t.Reached w) :
    (∀ times, Ends (range.reach < w) (fun done => ∃ cs, cs.length = done.1 ∧
      t.Collapses cs done.2 ∧ Ascends cs done.2.tree) (t.pruneTimes times)) ∧
    ∀ limit, Ends (range.reach < w) (fun step => ∃ cs last, t.Collapses cs last ∧
      Ascends cs last.tree ∧ step.tree = last.tree ∧ (step.events = last.events ∨
        ∃ n target, step.events = .limitReached n limit target :: last.events))
      (t.enforceLimit limit) := by
  obtain ⟨L, hL, hless⟩ := h.stores
  refine ⟨fun times => ?_, fun limit => ?_⟩
  · refine (hL.pruneTimes hlo hless times).mono fun done hdone => ?_
    obtain ⟨cs, hlength, hcs⟩ := hdone
    exact ⟨cs, hlength, hcs, hcs.ascends hlo hL⟩
  · refine (hL.enforceLimit_collapses hlo hless limit).mono fun step hstep => ?_
    obtain ⟨cs, last, hcs, htree, hevents⟩ := hstep
    exact ⟨cs, last, hcs, hcs.ascends hlo hL, htree, hevents⟩

/-- Eight folds in a tree of two chains, one of which holds five and the other nine. -/
theorem reached_prunes_ascending_of_chains : ∃ t : Tree (Count (.unsigned 8)) 1, t.Reached 14 ∧
    ∃ done cs, t.pruneTimes 8 = .ok done ∧ done.1 = 8 ∧ cs.length = 8 ∧ t.Collapses cs done.2 ∧
      Ascends cs done.2.tree := by
  have hrun : ∃ done, (empty .standard : Tree (Count (.unsigned 8)) 1).run
      [.add [0] ⟨2, by decide, by decide⟩, .add [1] ⟨3, by decide, by decide⟩,
        .add [128] ⟨9, by decide, by decide⟩] = .ok done ∧
      ∃ pruned, done.1.pruneTimes 8 = .ok pruned ∧ pruned.1 = 8 := ⟨_, rfl, _, rfl, rfl⟩
  obtain ⟨⟨t, replies⟩, hrun, done, hdone, hsteps⟩ := hrun
  have hreached : t.Reached 14 := (Reached.empty (by decide)).run hrun
  obtain ⟨cs, hlength, hcs, hascends⟩ := ((reached_prunes_ascending rfl hreached).1 8).of_ok hdone
  exact ⟨t, hreached, done, cs, hdone, hsteps, hlength.trans hsteps, hcs, hascends⟩

end Tree

end PrefixTally
