import PrefixTally.Proofs.Layout.Twins
import PrefixTally.Proofs.Tree.Bisimulation

/-! Trees with the same trie.  Twins may keep their nodes in different slots and may have counted
different histories, but no operation tells them apart: their histograms, totals and candidates are
the same, now and after every run, and a sum overflows in both or in neither. -/

namespace PrefixTally.Tree

variable {range : IntRange} {width : Nat} {t u : Tree (Count range) width}

/-- The trees prune alike and store the same trie. -/
structure Twins (t u : Tree (Count range) width) : Prop where
  maxNodes : u.config.maxNodes = t.config.maxNodes
  prunePercent : u.config.prunePercent = t.config.prunePercent
  stores : ∃ L M, t.Stores L ∧ u.Stores M ∧ M.trie = L.trie

theorem Twins.nodeCount (h : t.Twins u) : u.nodeCount = t.nodeCount := by
  obtain ⟨L, M, hL, hM, htrie⟩ := h.stores
  have hsize := Layout.size_congr htrie
  rw [hL.counted, hM.counted] at hsize
  exact Nat.succ.inj hsize

theorem Twins.pruneOnce (h : t.Twins u) :
    Lockstep (Option.Rel (Step.Related Twins fun _ _ => True)) t.pruneOnce u.pruneOnce := by
  obtain ⟨L, M, hL, hM, htrie⟩ := h.stores
  have hsame := Layout.isInner_congr htrie
  cases hinner : L.isInner with
  | false =>
    rw [hL.pruneOnce_none hinner, hM.pruneOnce_none (hsame.trans hinner)]
    exact .value .none
  | true =>
    refine (hL.pruneOnce_lockstep hinner).across (S := fun L' M' => M'.trie = L'.trie) ?_
      (hM.pruneOnce_lockstep (hsame.trans hinner))
      fun found L' found' M' hfound htrie' hfound' => ?_
    -- The choice depends on the trie only, so both trees fold at the same path.
    · rw [Layout.choice_congr htrie]
      refine Lockstep.refl_bind fun p hp => ?_
      have htwig := (Layout.choice_ends hinner (Nat.le_refl _)).of_ok hp
      obtain ⟨s, hs⟩ := Layout.slot?_of_isInner htwig.inner
      exact Layout.foldAt_lockstep htrie hs htwig
    · obtain ⟨step, rfl, -, hL', hkeeps⟩ := hfound
      obtain ⟨step', rfl, -, hM', hkeeps'⟩ := hfound'
      refine .some ⟨⟨?_, ?_, L', M', hL', hM', htrie'⟩, trivial⟩
      · rw [hkeeps'.config, hkeeps.config, h.maxNodes]
      · rw [hkeeps'.config, hkeeps.config, h.prunePercent]

theorem Twins.place {key : Bytes} (x : Count range) (h : t.Twins u) (hkey : key.length ≤ width) :
    Lockstep Twins (t.place key x) (u.place key x) := by
  obtain ⟨L, M, hL, hM, htrie⟩ := h.stores
  have hlen : (Bits.unpack key).length ≤ 8 * width := by rw [Bits.length_unpack]; omega
  obtain ⟨L₁, s, hgrown, hs, hadd⟩ := hL.tallyAt_lockstep hlen x _ fun _ _ => hL.follows_noted
  obtain ⟨M₁, s', hgrown', -, hadd'⟩ := hM.tallyAt_lockstep hlen x _ fun _ _ => hM.follows_noted
  -- Different slots may be created, but the same paths.
  have htrie₁ : M₁.trie = L₁.trie := by rw [hgrown'.trie_eq, hgrown.trie_eq, htrie]
  rw [hL.place_eq, hM.place_eq]
  refine hadd.across (Layout.addAt_lockstep htrie₁ hs x) hadd'
    fun a L' b M' ha htrie' hb => ⟨?_, ?_, L', M', ha.1, hb.1, htrie'⟩
  · rw [hb.2, ha.2, h.maxNodes]
  · rw [hb.2, ha.2, h.prunePercent]

theorem bisimulation_twins :
    Bisimulation (fun t u : Tree (Count range) width => t.Twins u) fun _ _ => True where
  refl _ := trivial
  append _ _ := trivial
  nodeCount := Twins.nodeCount
  maxNodes := Twins.maxNodes
  prunePercent := Twins.prunePercent
  pruneOnce := Twins.pruneOnce
  place := Twins.place
  markClean h := by
    obtain ⟨L, M, hL, hM, htrie⟩ := h.stores
    refine ⟨h.maxNodes, h.prunePercent, _, _, hL.markClean, hM.markClean, ?_⟩
    rw [Layout.trie_plain, Layout.trie_plain, htrie]
  copy h := by
    obtain ⟨L, M, hL, hM, htrie⟩ := h.stores
    exact ⟨h.maxNodes, h.prunePercent, L, M, hL.copy, hM.copy, htrie⟩

/-- The same can be read of both trees, and the same operations found a node to fold. -/
structure Indistinct (a b : Tree (Count range) width × List (Reply (Count range))) : Prop where
  nodeCount : a.1.nodeCount = b.1.nodeCount
  visits : a.1.visits = b.1.visits
  histogram : a.1.histogram = b.1.histogram
  total : a.1.total = b.1.total
  candidate : a.1.candidate = b.1.candidate
  folded : a.2.map Reply.folded = b.2.map Reply.folded

theorem Twins.indistinct {a b : Tree (Count range) width × List (Reply (Count range))}
    (h : a.1.Twins b.1) (hfolded : a.2.map Reply.folded = b.2.map Reply.folded) :
    Indistinct a b := by
  obtain ⟨L, M, hL, hM, htrie⟩ := h.stores
  have hvisits : a.1.visits = b.1.visits := by
    rw [hL.visits, hM.visits, Layout.stops_congr htrie]
  refine ⟨h.nodeCount.symm, hvisits, ?_, ?_, ?_, hfolded⟩
  · rw [histogram_eq, histogram_eq, hvisits]
  · rw [hL.total, hM.total, Layout.total_congr htrie]
  · rw [hL.candidate, hM.candidate]
    simp only [Layout.isInner_congr htrie, Layout.choice_congr htrie,
      Layout.total_congr (Layout.sub_congr htrie _)]

/-- Runs of the same operations on twins cannot be told apart. -/
theorem Twins.run (h : t.Twins u) (ops : List (Operation (Count range))) :
    Lockstep Indistinct (t.run ops) (u.run ops) := by
  refine (bisimulation_twins.run h ops).mono fun a b hab => hab.1.indistinct ?_
  refine List.forall₂_eq_eq_eq ▸ List.forall₂_map_left_iff.mpr (List.forall₂_map_right_iff.mpr ?_)
  exact hab.2.imp fun x y hxy => hxy.folded

end PrefixTally.Tree
