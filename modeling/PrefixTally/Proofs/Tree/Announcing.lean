import PrefixTally.Proofs.Layout.Marks
import PrefixTally.Proofs.Layout.Splicing
import PrefixTally.Proofs.Tree.Candidate
import PrefixTally.Proofs.Tree.Traversal
import PrefixTally.Proofs.Trie.Total

/-! What a step of pruning does.  The candidate announces it: the node of the candidate gets the
total of the candidate, its children are gone, and nothing else can be seen to differ.  Every other
visit stays as it is and where it is, the counters move by the number of children, the settings and
the counts of the cache stay, the total is the same, and the tree counts as modified.  Where there
is no candidate nothing happens at all. -/

namespace PrefixTally.Tree

variable {range : IntRange} {width w : Nat} {t : Tree (Count range) width}
  {L : Layout (Count range)} {p : Path} {total : Count range}

/-- The visits in `later` are those in `visits` except at the candidate, whose visit has its total
and no children, and at its children, which are the visits one bit further on its path. -/
structure Splices (c : Candidate (Count range) width)
    (kids visits later : List (Visit (Count range) width)) : Prop where
  split : ∃ v before after, v.toPrefix = c.toPrefix ∧ v.children = kids.length ∧
    kids = visits.filter (continues v) ∧ visits = before ++ v :: (kids ++ after) ∧
    later = before ++ ⟨c.toPrefix, c.total, 0⟩ :: after
  leaves : ∀ kid ∈ kids, kid.children = 0
  count : kids.length = 1 ∨ kids.length = 2

/-- In `u` the children of the candidate of `t` are folded into it, and nothing else differs.  The
totals can overflow only if `E` holds. -/
structure FoldsAs (E : Prop) (t : Tree (Count range) width) (c : Candidate (Count range) width)
    (u : Tree (Count range) width) : Prop where
  visits : ∃ kids visits later, t.visits = .ok visits ∧ u.visits = .ok later ∧
    Splices c kids visits later ∧ u.nodeCount + kids.length = t.nodeCount ∧
    u.pruned = t.pruned + kids.length
  keeps : t.Keeps u
  total : Ends E (fun sum => Ends E (fun sum' => sum' = sum) u.total) t.total
  isModified : u.isModified = .ok true

theorem Stores.splices {L' : Layout (Count range)} {s : SlotId} (h : t.Stores L)
    (hfold : L.foldAt p = .ok L') (hs : L.slotAt p = some s) (htwig : (L.sub p).IsTwig)
    (htotal : (L.sub p).total = .ok total) :
    Splices { Prefix.ofPath width p with total } (((L.sub p).stopsBelow p).map visit)
      ((L.stops []).map visit) ((L'.stops []).map visit) := by
  obtain ⟨before, v, after, y, hold, hnew, hy⟩ := Layout.exists_stops_foldAt hfold hs htwig
  obtain rfl : y = total := Count.ext (hy.trans (Layout.total_trie htotal).symm)
  have hlength : (L.sub p).childCount = (((L.sub p).stopsBelow p).map
      (visit : _ → Visit (Count range) width)).length := by
    rw [List.length_map, Layout.length_stopsBelow, htwig.childCount_eq_size]
  refine ⟨⟨visit ⟨p, v, (L.sub p).childCount⟩, before.map visit, after.map visit, rfl, hlength, ?_,
    ?_, ?_⟩, fun kid hkid => ?_, ?_⟩
  · have hmem : ⟨p, v, (L.sub p).childCount⟩ ∈ L.stops [] := by
      rw [hold]
      exact List.mem_append_right _ List.mem_cons_self
    rw [htwig.stopsBelow_eq, List.filter_map]
    refine congrArg (List.map visit) (List.filter_congr fun stop hstop => ?_)
    exact (h.continues_visit hmem hstop).symm
  · rw [hold, List.map_append, List.map_cons, List.map_append]
  · rw [hnew, List.map_append, List.map_cons]
    rfl
  · obtain ⟨stop, hstop, rfl⟩ := List.mem_map.mp hkid
    exact (htwig.of_mem_stopsBelow stop hstop).2
  · rw [← hlength]
    exact htwig.childCount_cases

theorem Stores.foldsAs {u : Tree (Count range) width} {events : List (PruneEvent (Count range))}
    (h : t.Stores L) (hw : L.weight ≤ w) (hp : L.choice = .ok p)
    (htotal : (L.sub p).total = .ok total) (hstep : t.pruneOnce = .ok (some ⟨u, events⟩)) :
    t.FoldsAs (range.reach < w) { Prefix.ofPath width p with total } u := by
  obtain ⟨L', honce, hL', hkeeps⟩ := h.found hstep
  obtain ⟨-, hchoice, hs, htwig, hfold⟩ := honce
  obtain rfl := Except.ok.inj (hp.symm.trans hchoice)
  have hsize := Layout.size_foldAt hfold hs
  have hlength : (((L.sub p).stopsBelow p).map
      (visit : _ → Visit (Count range) width)).length =
      ((L.sub p).child false).size + ((L.sub p).child true).size := by
    rw [List.length_map, Layout.length_stopsBelow]
  -- The counters follow from the number of nodes, since no node is created.
  have hcounted := h.counted
  have hcounted' : L'.size = u.nodeCount + 1 := hL'.counted
  have hbalanced := h.balanced
  have hbalanced' : u.inserted = u.pruned + u.nodeCount := hL'.balanced
  have hinserted : u.inserted = t.inserted := hkeeps.inserted
  have hless := (Layout.foldAt_ends hs (Nat.le_refl L.weight)).of_ok hfold
  refine ⟨⟨_, _, _, h.visits, hL'.visits, h.splices hfold hs htwig htotal, ?_, ?_⟩, hkeeps, ?_, ?_⟩
  · omega
  · omega
  · rw [h.total, show u.total = L'.total from hL'.total]
    refine (Layout.total_ends hw).imp id fun sum hsum _ => ?_
    refine (Layout.total_ends (Nat.le_trans hless hw)).imp id fun sum' hsum' _ => ?_
    refine Count.ext ?_
    rw [Layout.total_trie hsum, Layout.total_trie hsum', Layout.trie_foldAt hfold hs htwig,
      Trie.total_foldAt]
  · rw [show u.isModified = .ok L'.isMarked from hL'.isModified, Layout.isMarked_foldAt hs hfold]

/-- A step of pruning finds a node to fold exactly when there is a candidate; then it does what the
candidate announces and nothing else, and otherwise nothing at all. -/
theorem reached_folds_as_announced (h : t.Reached w) :
    Ends (range.reach < w) (fun announced => Ends (range.reach < w) (fun done =>
        done.2.folded = announced.isSome ∧ (announced = none → done = (t, ⟨false, []⟩)) ∧
        ∀ c, announced = some c → t.FoldsAs (range.reach < w) c done.1)
      (t.apply .pruneOnce)) t.candidate := by
  obtain ⟨L, hL, hless⟩ := h.stores
  rw [hL.candidate]
  split
  · rename_i hinner
    refine (Layout.choice_ends hinner hless).bind fun p hp _ => ?_
    have hsub := Nat.le_trans (Layout.weight_sub_le L p) hless
    refine (Layout.total_ends hsub).bind fun total htotal _ => .value ?_
    refine (hL.pruneOnce hinner hless).bind fun found hfound hstep => ?_
    obtain ⟨first, -, rfl, -⟩ := hstep
    refine .value ⟨rfl, fun hnone => ?_, fun c hc => ?_⟩
    · cases hnone
    · cases hc
      exact hL.foldsAs hless hp htotal hfound
  · rename_i hleaf
    refine .value ?_
    rw [Tree.apply, hL.pruneOnce_none (Bool.eq_false_iff.mpr hleaf)]
    refine .value ⟨rfl, fun _ => rfl, fun c hc => ?_⟩
    cases hc

/-- Two children are folded into the node above them, as the candidate of nine nodes announces. -/
theorem reached_folds_as_announced_of_pair : ∃ (t : Tree (Count (.unsigned 8)) 1)
    (c : Candidate (Count (.unsigned 8)) 1), t.Reached 5 ∧ t.nodeCount = 9 ∧
      t.candidate = .ok (some c) ∧ c.depth = 7 ∧ c.total.val = 5 ∧
      ∃ done, t.apply .pruneOnce = .ok done ∧ done.2.folded = true ∧ done.1.nodeCount = 7 ∧
        t.FoldsAs ((IntRange.unsigned 8).reach < 5) c done.1 := by
  have hrun : ∃ done, (empty .standard : Tree (Count (.unsigned 8)) 1).run
      [.add [0] ⟨2, by decide, by decide⟩, .add [1] ⟨3, by decide, by decide⟩] = .ok done ∧
      done.1.nodeCount = 9 ∧
      (∃ c, done.1.candidate = .ok (some c) ∧ c.depth = 7 ∧ c.total.val = 5) ∧
      ∃ pruned, done.1.apply .pruneOnce = .ok pruned ∧ pruned.2.folded = true ∧
        pruned.1.nodeCount = 7 := ⟨_, rfl, rfl, ⟨_, rfl, rfl, rfl⟩, _, rfl, rfl, rfl⟩
  obtain ⟨⟨t, replies⟩, hrun, hcount, ⟨c, hc, hdepth, htotal⟩, done, hdone, hfolded, hleft⟩ := hrun
  have hreached : t.Reached 5 := (Reached.empty (by decide)).run hrun
  have hannounced := ((reached_folds_as_announced hreached).of_ok hc).of_ok hdone
  exact ⟨t, c, hreached, hcount, hc, hdepth, htotal, done, hdone, hfolded, hleft,
    hannounced.2.2 c rfl⟩

end PrefixTally.Tree
