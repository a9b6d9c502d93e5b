import PrefixTally.Proofs.Tree.Conservation
import PrefixTally.Proofs.Tree.Enforcing
import PrefixTally.Proofs.Tree.Filling
import PrefixTally.Proofs.Tree.Traversal
import PrefixTally.Tree.Stats

/-! The counters of a tree against its traversal.  The node count is kept from change to change, the
terminal nodes are counted in a scan of all slots, and the total is summed along the links; all
three agree with what a traversal meets, because free slots are blank and every other slot is
visited once.  Where only positive values were added, the terminal nodes are the leaves. -/

namespace PrefixTally

/-! ### Scanning slots -/

theorem countP_range_getElem? {α : Type} (p : α → Bool) (l : List α) :
    (List.range l.length).countP (fun i => l[i]?.any p) = l.countP p := by
  induction l with
  | nil => rfl
  | cons a l ih =>
    rw [List.length_cons, List.range_succ_eq_map, List.countP_cons, List.countP_cons,
      List.countP_map, ← ih]
    rfl

theorem countP_eq_of_forall₂ {α β : Type} {R : α → β → Prop} {p : α → Bool} {q : β → Bool}
    {xs : List α} {ys : List β} (h : List.Forall₂ R xs ys) (hR : ∀ a b, R a b → p a = q b) :
    xs.countP p = ys.countP q := by
  induction h with
  | nil => rfl
  | cons hab _ ih => rw [List.countP_cons, List.countP_cons, ih, hR _ _ hab]

variable {range : IntRange} {width w n : Nat}

namespace Arena

variable {V : Type} [Tally V]

/-- Whether a slot holds a node with a positive tally and no children. -/
def isTerminalAt (a : Arena V) (s : SlotId) : Bool := a.slots[s]?.any Node.isTerminal

theorem isTerminalAt_of_get {a : Arena V} {s : SlotId} {node : Node V} (h : a.get s = .ok node) :
    a.isTerminalAt s = node.isTerminal := by
  rw [isTerminalAt, get_eq_ok_iff.mp h]
  rfl

/-- Free slots are blank and are not counted. -/
theorem Holds.terminalCount_eq {a : Arena (Count range)} {L : Layout (Count range)}
    (h : a.Holds none L []) : a.terminalCount = L.slots.countP a.isTerminalAt := by
  have hscan : a.terminalCount = (List.range a.slotCount).countP a.isTerminalAt := by
    rw [terminalCount, ← Array.countP_toList, ← countP_range_getElem?]
    simp only [Array.getElem?_toList, Array.length_toList]
    rfl
  have hfree : a.free.countP a.isTerminalAt = 0 := by
    rw [List.countP_eq_zero]
    intro s hs
    rw [isTerminalAt_of_get (h.blank s hs)]
    exact Bool.false_ne_true
  rw [hscan, ← h.fill.countP_eq, List.append_nil, List.countP_append, hfree, Nat.add_zero]

end Arena

/-! ### Agreement -/

/-- The counters agree with the visits of a traversal and with the entries of the histogram. -/
structure Stats.Agrees (s : Stats (Count range)) (visits : List (Visit (Count range) width))
    (entries : List (Entry (Count range) width)) : Prop where
  nodeCount : s.nodeCount + 1 = visits.length
  terminalNodes :
    s.terminalNodes = visits.countP fun v => 0 < v.exclusive.val ∧ v.children = 0
  total_visits : s.total.val = (visits.map fun v => v.exclusive.val).sum
  total_entries : s.total.val = (entries.map fun e => e.value.val).sum
  balanced : s.inserted = s.pruned + s.nodeCount

/-- What the scan counts in a tree to which nothing but `n` positive values was added: the visits
without children, but not the root of a tree to which nothing was added. -/
structure Stats.CountsLeaves (s : Stats (Count range)) (n : Nat)
    (visits : List (Visit (Count range) width)) : Prop where
  leaves : 0 < n → s.terminalNodes = visits.countP fun v => v.children = 0
  untouched : n = 0 → s.terminalNodes = 0 ∧
    ∃ root, visits = [root] ∧ root.depth = 0 ∧ root.exclusive.val = 0 ∧ root.children = 0

theorem Layout.countP_leaves {L : Layout (Count range)} (hbears : L.trie.Bears) :
    (((L.stops []).map (Tree.visit : _ → Visit (Count range) width)).countP
      fun v => 0 < v.exclusive.val ∧ v.children = 0) =
    ((L.stops []).map (Tree.visit : _ → Visit (Count range) width)).countP
      fun v => v.children = 0 := by
  refine List.countP_congr fun v hv => ?_
  obtain ⟨stop, hstop, rfl⟩ := List.mem_map.mp hv
  have hwalk := List.mem_map_of_mem (f := fun stop : Arena.Stop (Count range) =>
    (⟨stop.path, stop.value.val, stop.children⟩ : Arena.Stop Int)) hstop
  rw [Layout.stops_trie] at hwalk
  have hpos := hbears.pos_of_leaf hwalk
  simp only [decide_eq_true_eq]
  exact ⟨fun hterminal => hterminal.2, fun hleaf => ⟨hpos hleaf, hleaf⟩⟩

namespace Tree

variable {t u : Tree (Count range) width} {L : Layout (Count range)}

/-- The terminal nodes of the scan are the visits with a positive value and no children. -/
theorem Stores.terminalCount_eq (h : t.Stores L) : t.arena.terminalCount =
    ((L.stops []).map (visit : _ → Visit (Count range) width)).countP
      fun v => 0 < v.exclusive.val ∧ v.children = 0 := by
  rw [h.holds.terminalCount_eq]
  refine countP_eq_of_forall₂ h.slots_reports.2.2 fun s v hreports => ?_
  obtain ⟨node, hget, hvalue, hchildren⟩ := hreports.node
  rw [Arena.isTerminalAt_of_get hget, hvalue, hchildren, Node.isTerminal, Bool.decide_and]
  congr 1
  cases hz : node.zero <;> cases ho : node.one <;> simp [Node.hasChildren, Node.childCount, hz, ho]

theorem Stores.stats_agree (h : t.Stores L) (hw : L.weight ≤ w) : ∃ entries,
    t.histogram = .ok entries ∧
    Ends (range.reach < w) (fun s => s.Agrees ((L.stops []).map visit) entries) t.stats := by
  obtain ⟨entries, hentries, hsum⟩ := h.sum_histogram
  obtain ⟨visits, hvisits, htotal⟩ := h.sum_visits
  obtain rfl := Except.ok.inj (hvisits.symm.trans h.visits)
  refine ⟨entries, hentries, ?_⟩
  rw [Tree.stats, h.total]
  refine (Layout.total_ends hw).bind fun c hc _ => .value ?_
  have hval := Layout.total_trie hc
  exact ⟨by rw [List.length_map, Layout.length_stops, h.counted], h.terminalCount_eq,
    hval.trans htotal.symm, hval.trans hsum.symm, h.balanced⟩

/-! ### Leaves -/

theorem BuiltBy.countsLeaves {s : Stats (Count range)} {visits : List (Visit (Count range) width)}
    {entries : List (Entry (Count range) width)} (h : t.BuiltBy n)
    (hvisits : t.visits = .ok visits) (hs : s.Agrees visits entries) : s.CountsLeaves n visits := by
  obtain ⟨L, hL, hsown⟩ := h.sown
  obtain rfl := Except.ok.inj (hL.visits.symm.trans hvisits)
  unfold Trie.Sown at hsown
  refine ⟨fun hpos => ?_, fun hzero => ?_⟩
  · rw [if_neg (Nat.ne_of_gt hpos)] at hsown
    exact hs.terminalNodes.trans (Layout.countP_leaves hsown)
  · rw [if_pos hzero] at hsown
    have hcount : t.nodeCount = 0 := by
      rw [(hL.represents (Nat.le_refl _)).nodeCount, hsown]
      rfl
    obtain ⟨v, hroot, hv⟩ := hL.visits_of_bare hcount
    have hsame := Except.ok.inj (hL.visits.symm.trans hroot)
    have hvalue : v.val = 0 := by
      rw [hv, hsown]
      rfl
    rw [hs.terminalNodes, hsame]
    exact ⟨by simp [hvalue], _, rfl, rfl, hvalue, rfl⟩

/-- The counters of a tree that was reached agree with its traversal and its histogram, unless the
total overflows, for which more must have been added than the tallies have room for.  Where nothing
but positive values was added, the terminal nodes are the visits without children. -/
theorem reached_stats_agree (h : t.Reached w) : ∃ visits entries, t.visits = .ok visits ∧
    t.histogram = .ok entries ∧
    Ends (range.reach < w) (fun s => s.Agrees visits entries ∧
      ∀ n, t.BuiltBy n → s.CountsLeaves n visits) t.stats := by
  obtain ⟨L, hL, hless⟩ := h.stores
  obtain ⟨entries, hentries, hstats⟩ := hL.stats_agree hless
  refine ⟨_, entries, hL.visits, hentries, hstats.mono fun s hs => ⟨hs, fun n hn => ?_⟩⟩
  exact hn.countsLeaves hL.visits hs

/-- Two adds on different sides of the root, whose ends are the two leaves. -/
theorem reached_stats_agree_of_adds : ∃ t : Tree (Count (.unsigned 8)) 1, t.Reached 12 ∧
    t.BuiltBy 2 ∧ ∃ s visits entries, t.stats = .ok s ∧ t.visits = .ok visits ∧
      t.histogram = .ok entries ∧ s.Agrees visits entries ∧
      s.terminalNodes = visits.countP fun v => v.children = 0 := by
  have hrun : ∃ u reply t reply', (empty .standard : Tree (Count (.unsigned 8)) 1).apply
        (.add [0] ⟨5, by decide, by decide⟩) = .ok (u, reply) ∧
      u.apply (.add [128] ⟨7, by decide, by decide⟩) = .ok (t, reply') :=
    ⟨_, _, _, _, rfl, rfl⟩
  obtain ⟨u, reply, t, reply', hfirst, hsecond⟩ := hrun
  have hreached : t.Reached 12 := .apply (.apply (.empty (by decide)) hfirst) hsecond
  have hbuilt : t.BuiltBy 2 := .add (.add (.empty .standard) (by decide) hfirst) (by decide) hsecond
  obtain ⟨visits, entries, hvisits, hentries, hends⟩ := reached_stats_agree hreached
  obtain ⟨s, hs, hagrees, hleaves⟩ := hends.exists_ok (by decide)
  exact ⟨t, hreached, hbuilt, s, visits, entries, hs, hvisits, hentries, hagrees,
    (hleaves 2 hbuilt).leaves (by decide)⟩

end Tree

end PrefixTally
