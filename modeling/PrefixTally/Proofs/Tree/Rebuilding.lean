import PrefixTally.Proofs.Tree.Filling
import PrefixTally.Proofs.Tree.Twins

/-! Rebuilding a tree from its own histogram.  The rebuilt tree has the same histogram and just the
nodes on the way to its entries.  If every leaf of the tree holds something, as it does where only
positive values were added, then no node is lost and no operation tells the two trees apart. -/

namespace PrefixTally.Tree

section Entries

variable {V : Type} [Tally V] {width : Nat} {t r : Tree V width} {L : Layout V} {config : Config}
  {entries : List (Entry V width)}

theorem Stores.histogram_holdings (h : t.Stores L) :
    t.histogram = .ok (L.holdings.map (Entry.ofHolding width)) := by
  rw [h.histogram, Layout.holdings, List.map_map]
  rfl

theorem Stores.length_holding_le (h : t.Stores L) :
    ∀ a ∈ L.holdings, a.1.length ≤ 8 * width := by
  intro a ha
  obtain ⟨s, hs⟩ := Layout.has_of_mem_holdings ha
  exact h.length_path_le hs

theorem Stores.ordered_entries (h : t.Stores L) :
    (L.holdings.map (Entry.ofHolding width)).Pairwise fun a b =>
      a.toPrefix.Before b.toPrefix := by
  rw [List.pairwise_map]
  refine (Layout.pairwise_holdings L).imp_of_mem fun _ hb hbefore => ?_
  exact Prefix.before_ofPath hbefore (h.length_holding_le _ hb)

theorem Stores.map_holding (h : t.Stores L) :
    (L.holdings.map (Entry.ofHolding width)).map Entry.holding = L.holdings := by
  rw [List.map_map]
  refine (List.map_congr_left fun a ha => ?_).trans (List.map_id _)
  exact Entry.holding_ofHolding (h.length_holding_le a ha)

theorem exists_of_orStop {α : Type} {x : Checked α} {a : α} (h : x.orStop = .ok a) :
    x = .ok a := by
  cases x with
  | ok b => exact congrArg Except.ok (Except.ok.inj h)
  | error f => cases h

theorem addEntry_pruned {e : Entry V width} (h : t.addEntry e = .ok r) : r.pruned = t.pruned := by
  rw [addEntry_eq] at h
  split at h
  · cases h
  · obtain ⟨last, -, h⟩ := exists_of_bind (exists_of_orStop h)
    obtain ⟨arena, -, h⟩ := exists_of_bind h
    rw [← Except.ok.inj h]

theorem addEntries_pruned (h : entries.foldlM addEntry t = .ok r) : r.pruned = t.pruned :=
  of_foldlM (P := fun u => u.pruned = t.pruned)
    (fun _ _ _ hu hadd => (addEntry_pruned hadd).trans hu) rfl h

/-- Entries are only added to a tree with valid settings. -/
theorem ofEntries_eq_ok (h : ofEntries config entries = .ok r) :
    config.Valid ∧ entries.foldlM addEntry (empty config) = .ok r := by
  rw [ofEntries, ofConfig, Config.validate] at h
  split at h
  · exact ⟨‹_›, h⟩
  · cases h

theorem ofEntries_of_valid (h : config.Valid) :
    ofEntries config entries = entries.foldlM addEntry (empty config) := by
  rw [ofEntries, ofConfig, Config.validate, if_pos h]
  rfl

theorem ofEntries_of_not_valid (h : ¬config.Valid) :
    ofEntries config entries = .error (.refused .percentOutOfRange) := by
  rw [ofEntries, ofConfig, Config.validate, if_neg h]
  rfl

/-- A tree made of a tree's own entries stores what is made of its holdings. -/
theorem Stores.rebuilt [Weighed V] (h : t.Stores L) (hentries : t.histogram = .ok entries)
    (hr : ofEntries config entries = .ok r) :
    ∃ M, r.Stores M ∧ r.config = config ∧ Layout.AddsAll L.holdings (.fresh Arena.root) M := by
  obtain ⟨M, hM, hconfig, -, hadds⟩ := (ofEntries_settles config entries).of_ok hr
  rw [h.histogram_holdings] at hentries
  rw [← Except.ok.inj hentries, h.map_holding] at hadds
  exact ⟨M, hM, hconfig, hadds⟩

end Entries

variable {range : IntRange} {width w : Nat} {t r u : Tree (Count range) width}
  {L : Layout (Count range)} {config : Config} {entries : List (Entry (Count range) width)}

/-! ### Adding where nothing is -/

/-- Entries with different paths, at which nothing was before, do not overflow. -/
theorem Stores.exists_addEntries (h : t.Stores L) (hdepth : ∀ e ∈ entries, e.depth ≤ 8 * width)
    (hnodup : (entries.map fun e => e.path).Nodup) (hvac : ∀ e ∈ entries, L.Vacant e.path) :
    ∃ u, entries.foldlM Tree.addEntry t = .ok u := by
  induction entries generalizing t L with
  | nil => exact ⟨t, rfl⟩
  | cons e rest ih =>
    have he := hdepth e List.mem_cons_self
    rw [List.map_cons, List.nodup_cons] at hnodup
    obtain ⟨M, s, hgrown, hs, htally⟩ := h.tallyAt_lockstep (Prefix.length_path_le he) e.value
      (fun _ => t.cache) fun _ _ hgrown _ => h.follows_grown hgrown
    obtain ⟨L', hadd⟩ := (hgrown.vacant (hvac e List.mem_cons_self)).exists_addAt hs e.value
    rw [hadd] at htally
    obtain ⟨v, hv, hL', -⟩ := htally.exists_ok
    -- The other paths differ from this one, so nothing lies at their ends yet.
    obtain ⟨last, hlast⟩ := ih hL' (fun e' he' => hdepth e' (List.mem_cons_of_mem _ he')) hnodup.2
      fun e' he' => Layout.AddsTo.vacant (.add hgrown hadd)
        (fun hsame => hnodup.1 (List.mem_map.mpr ⟨e', he', hsame⟩))
        (hvac e' (List.mem_cons_of_mem _ he'))
    refine ⟨last, ?_⟩
    rw [List.foldlM_cons, addEntry_eq, if_neg (Nat.not_lt.mpr he), hv]
    exact hlast

/-- A tree can be rebuilt from its own histogram. -/
theorem Stores.exists_ofEntries (h : t.Stores L) (hvalid : t.config.Valid) :
    ∃ r, Tree.ofEntries t.config (L.holdings.map (Entry.ofHolding width)) = .ok r := by
  rw [ofEntries_of_valid hvalid]
  refine (stores_empty t.config).exists_addEntries (fun e he => ?_) ?_ fun e _ =>
    Layout.vacant_fresh _ _
  · obtain ⟨a, ha, rfl⟩ := List.mem_map.mp he
    exact h.length_holding_le a ha
  · have hpaths := congrArg (List.map Prod.fst) h.map_holding
    rw [List.map_map] at hpaths
    rw [show (fun e : Entry (Count range) width => e.path) = Prod.fst ∘ Entry.holding from rfl,
      hpaths]
    exact Layout.nodup_holdings L

/-! ### Rebuilding -/

/-- `r` has the given histogram and the nodes on the way to its entries, which are all nodes of `t`
if every leaf of `t` holds something.  Then no operation tells the two trees apart. -/
structure Rebuilds (t r : Tree (Count range) width) (entries : List (Entry (Count range) width)) :
    Prop where
  histogram : r.histogram = .ok entries
  live : ∀ p, p ≠ [] → ((∃ s, r.arena.Leads p s) ↔ ∃ e ∈ entries, p <+: e.path)
  nodeCount_le : r.nodeCount ≤ t.nodeCount
  nodeCount_eq_iff : r.nodeCount = t.nodeCount ↔ t.Filled
  inserted : r.inserted = r.nodeCount
  pruned : r.pruned = 0
  run : t.Filled → ∀ ops, Lockstep Indistinct (t.run ops) (r.run ops)

theorem Stores.rebuilds (h : t.Stores L)
    (hr : ofEntries t.config (L.holdings.map (Entry.ofHolding width)) = .ok r) :
    t.Rebuilds r (L.holdings.map (Entry.ofHolding width)) := by
  obtain ⟨M, hM, hconfig, hadds⟩ := h.rebuilt h.histogram_holdings hr
  have htop : L.Has [] := ⟨_, h.root⟩
  have hcounted := h.counted
  have hcountedM := hM.counted
  have hbalanced := hM.balanced
  have hpruned : r.pruned = 0 := addEntries_pruned (ofEntries_eq_ok hr).2
  have hsize := hadds.size_le htop
  refine ⟨?_, fun p hp => ?_, by omega, ?_, by omega, hpruned, fun hfilled ops => ?_⟩
  · rw [hM.histogram_holdings, hadds.holdings_eq]
  · simp only [hM.holds.leads_iff hM.root]
    refine hadds.has_fresh_iff.trans ((or_iff_right hp).trans ?_)
    simp only [List.mem_map, exists_exists_and_eq_and]
    refine exists_congr fun a => and_congr_right fun ha => ?_
    have hread : (Entry.ofHolding width a).path = a.1 :=
      Prefix.path_ofPath (h.length_holding_le a ha)
    rw [hread]
  · rw [h.filled_iff, ← hadds.size_eq_iff htop]
    omega
  · have hL := h.filled_iff.mp hfilled
    refine Twins.run ⟨by rw [hconfig], by rw [hconfig], L, M, h, hM, ?_⟩ ops
    exact Layout.trie_eq_of_holdings (fun p => hadds.has_iff_of_filled htop hL) hadds.holdings_eq

theorem Reached.valid (h : t.Reached w) : t.config.Valid := by
  induction h with
  | empty hvalid => exact hvalid
  | entries hentries =>
    obtain ⟨L, -, hconfig, -⟩ := (ofEntries_settles _ _).of_ok hentries
    rw [hconfig]
    exact (ofEntries_eq_ok hentries).1
  | apply hreached happly ih =>
    obtain ⟨L, hL, -⟩ := hreached.stores
    obtain ⟨L', -, -, hconfig, -⟩ := (hL.apply _ (Nat.le_refl _)).of_ok happly
    exact hconfig ▸ ih

/-- Every tree that was reached can be rebuilt from its own histogram. -/
theorem reached_rebuilds (h : t.Reached w) :
    (∃ entries r, t.histogram = .ok entries ∧ ofEntries t.config entries = .ok r ∧
      t.Rebuilds r entries) ∧ (t.BuiltUp → t.Filled) := by
  obtain ⟨L, hL, -⟩ := h.stores
  obtain ⟨r, hr⟩ := hL.exists_ofEntries h.valid
  exact ⟨⟨_, r, hL.histogram_holdings, hr, hL.rebuilds hr⟩, BuiltUp.filled⟩

/-- A tree of two keys, one of which holds nothing any more, and a tree that only has the other. -/
theorem reached_rebuilds_of_adds : ∃ t : Tree (Count (.signed 8)) 1, t.Reached 11 ∧
    ∃ entries r, t.histogram = .ok entries ∧ ofEntries t.config entries = .ok r ∧
      t.nodeCount = 16 ∧ r.nodeCount = 8 ∧ t.Rebuilds r entries ∧ (t.BuiltUp → t.Filled) := by
  have hrun : ∃ done, (empty .standard : Tree (Count (.signed 8)) 1).run
      [.add [0] ⟨5, by decide, by decide⟩, .add [128] ⟨3, by decide, by decide⟩,
        .add [128] ⟨-3, by decide, by decide⟩] = .ok done ∧
      ∃ entries r, done.1.histogram = .ok entries ∧ ofEntries done.1.config entries = .ok r ∧
        done.1.nodeCount = 16 ∧ r.nodeCount = 8 := ⟨_, rfl, _, _, rfl, rfl, rfl, rfl⟩
  obtain ⟨⟨t, replies⟩, hrun, entries, r, hentries, hr, hcount, hfewer⟩ := hrun
  have hreached : t.Reached 11 := (Reached.empty (by decide)).run hrun
  obtain ⟨⟨entries', r', hentries', hr', hrebuilds⟩, hfilled⟩ := reached_rebuilds hreached
  obtain rfl := Except.ok.inj (hentries.symm.trans hentries')
  obtain rfl := Except.ok.inj (hr.symm.trans hr')
  exact ⟨t, hreached, entries, r, hentries, hr, hcount, hfewer, hrebuilds, hfilled⟩

end PrefixTally.Tree
