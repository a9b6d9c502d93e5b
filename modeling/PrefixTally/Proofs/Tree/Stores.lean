import PrefixTally.Proofs.Arena.Folding
import PrefixTally.Proofs.Arena.Marking
import PrefixTally.Proofs.Arena.Reading
import PrefixTally.Proofs.Cache

/-! What a tree stores.  `Stores t L` ties a tree to a layout: the arena holds the layout and
nothing else, its root is in the root's slot, no node lies deeper than a key has bits, every node
above a marked one is marked, the counters count its nodes, and the cache follows it.  Each
operation of pruning is an operation on the layout. -/

namespace PrefixTally.Tree

variable {V : Type} {width : Nat}

/-- `u` has the settings of `t`, and as many nodes were created and keys looked up in it. -/
structure Keeps (t u : Tree V width) : Prop where
  config : u.config = t.config
  inserted : u.inserted = t.inserted
  hits : u.cache.hits = t.cache.hits
  misses : u.cache.misses = t.cache.misses

theorem Keeps.refl (t : Tree V width) : t.Keeps t := ⟨rfl, rfl, rfl, rfl⟩

theorem Keeps.trans {t u v : Tree V width} (h : t.Keeps u) (k : u.Keeps v) : t.Keeps v :=
  ⟨k.config.trans h.config, k.inserted.trans h.inserted, k.hits.trans h.hits,
    k.misses.trans h.misses⟩

/-- The tree whose arena is `b` since the nodes of `C` were folded away. -/
def foldedAway (t : Tree V width) (C : Layout V) (b : Arena V) : Tree V width :=
  { t with
    arena := b
    cache := t.cache.forget C.slot?
    nodeCount := t.nodeCount - C.size
    pruned := t.pruned + C.size }

theorem keeps_foldedAway (t : Tree V width) (C : Layout V) (b : Arena V) :
    t.Keeps (t.foldedAway C b) := by
  cases C <;> exact ⟨rfl, rfl, rfl, rfl⟩

variable [Tally V] {t : Tree V width} {L : Layout V}

/-- The tree has the nodes of a layout, and its counters and its cache agree with them. -/
structure Stores (t : Tree V width) (L : Layout V) : Prop where
  holds : t.arena.Holds none L []
  root : L.slot? = some Arena.root
  depth : L.height ≤ 8 * width + 1
  closed : L.Closed
  counted : L.size = t.nodeCount + 1
  balanced : t.inserted = t.pruned + t.nodeCount
  follows : t.cache.Follows L

/-! ### Folding -/

theorem foldChild_lockstep {S : Layout V} {up : Option SlotId} {apart : List SlotId} {s : SlotId}
    (bit : Bool) (h : t.arena.Holds up S apart) (hs : S.slot? = some s)
    (hleaf : (S.child bit).isInner = false) (hcount : (S.child bit).size ≤ t.nodeCount) :
    Lockstep (fun step S' => ∃ b : Arena V, b.Holds up S' apart ∧ t.arena.Agrees b apart ∧
      step = ⟨t.foldedAway (S.child bit) b, (S.child bit).topEvent⟩)
      (t.foldChild s bit) (S.foldSide bit) := by
  obtain ⟨arena, cache, config, nodeCount, inserted, pruned⟩ := t
  rcases Layout.eq_of_not_isInner hleaf with hnone | ⟨c, v, d, hc⟩
  · rw [Layout.foldSide_absent hnone, Tree.foldChild, h.removeLeaf_absent hs hnone, ok_bind, hnone]
    exact .value ⟨arena, h, .refl _ _, rfl⟩
  · obtain ⟨b, hremove, hb, hab⟩ := h.removeLeaf_leaf hs hc
    rw [Layout.foldSide_leaf hc, Tree.foldChild, hremove, ok_bind]
    refine (hb.addOwn (by rw [Layout.slot?_withChild]; exact hs) v).lead_bind
      fun e S' _ _ he => ?_
    rw [hc] at hcount ⊢
    have hpos : nodeCount ≠ 0 := by
      rw [Layout.size_node] at hcount
      simp only at hcount
      omega
    rw [if_neg hpos]
    exact .value ⟨e, he.1, hab.trans he.2, rfl⟩

/-- A tree from which the children of a node were folded away stores the folded layout. -/
theorem Stores.foldedAway {p : Path} {s : SlotId} {L' : Layout V} {b : Arena V} (h : t.Stores L)
    (hp : L.slotAt p = some s) (htwig : (L.sub p).IsTwig) (hfold : L.foldAt p = .ok L')
    (hb : b.Holds none L' []) :
    ((t.foldedAway ((L.sub p).child false) b).foldedAway ((L.sub p).child true) b).Stores L' := by
  have hsize := Layout.size_foldAt hfold hp
  have hcounted := h.counted
  have hbalanced := h.balanced
  obtain ⟨top, htop⟩ : ∃ top, L'.slot? = some top :=
    ⟨Arena.root, (Layout.slot?_foldAt hfold hp).trans h.root⟩
  have hpos : 0 < L'.size := Layout.size_pos (by rw [htop]; rfl)
  refine ⟨hb, (Layout.slot?_foldAt hfold hp).trans h.root,
    Nat.le_trans (Layout.height_foldAt_le hfold hp) h.depth,
    Layout.closed_foldAt hfold hp h.closed, ?_, ?_, ?_⟩
  · show L'.size = t.nodeCount - _ - _ + 1
    omega
  · show t.inserted = t.pruned + _ + _ + (t.nodeCount - _ - _)
    omega
  · refine h.follows.mono fun key c hmem => ?_
    obtain ⟨hone, hmem⟩ := Cache.mem_forget hmem
    obtain ⟨hzero, hmem⟩ := Cache.mem_forget hmem
    refine ⟨hmem, fun hc => Layout.slotAt_foldAt hfold hp htwig hc fun bit => ?_⟩
    cases bit with
    | false => exact hzero
    | true => exact hone

/-- Folding the children of a node into it folds them in the layout, and the cache forgets them. -/
theorem Stores.foldChildren {p : Path} {s : SlotId} (h : t.Stores L) (hp : L.slotAt p = some s)
    (htwig : (L.sub p).IsTwig) :
    Lockstep (fun step L' => step.tree.Stores L' ∧ t.Keeps step.tree ∧
      step.events = (L.sub p).foldEvents) (t.foldChildren s) (L.foldAt p) := by
  obtain ⟨up, apart, hsub, hback⟩ := h.holds.focus hp
  obtain ⟨v, d, z, o, hnode⟩ := Layout.slot?_eq_some_iff.mp hp
  have hleaves := htwig.leaves
  have hcounts : z.size + o.size ≤ t.nodeCount := by
    have hpart := Layout.measure_sub_le (fun _ => 1) L p
    have hall := h.counted
    change (L.sub p).size ≤ L.size at hpart
    rw [hnode, Layout.size_node] at hpart
    omega
  rw [hnode] at hsub hleaves
  have hz : z.isInner = false := hleaves false
  have ho : o.isInner = false := hleaves true
  rw [Tree.foldChildren, Layout.foldAt, hnode]
  refine (foldChild_lockstep false hsub rfl hz (by show z.size ≤ _; omega)).bind
    fun step S _ hS hstep => ?_
  obtain ⟨b, hb, hab, rfl⟩ := hstep
  obtain ⟨x, -, hx⟩ := Layout.foldSide_eq_ok hS
  obtain rfl : S = .node s x d .absent o := hx
  refine (foldChild_lockstep (t := t.foldedAway z b) true hb rfl ho
    (by show o.size ≤ t.nodeCount - z.size; omega)).bind fun step S' _ hS' hstep => ?_
  obtain ⟨e, he, hbe, rfl⟩ := hstep
  obtain ⟨y, -, hy⟩ := Layout.foldSide_eq_ok hS'
  obtain rfl : S' = .node s y d .absent .absent := hy
  have hfold : L.foldAt p = .ok ((L.graft p (.node s y d .absent .absent)).mark p) := by
    rw [Layout.foldAt, hnode, hS, ok_bind, hS']
    rfl
  -- The arena holds the folded node in its place, and what is left is to mark the path to it.
  obtain ⟨hwhole, -⟩ := hback e _ he (hab.trans hbe) rfl
  have hclosed : (L.graft p (.node s y d .absent .absent)).Closed := by
    refine Layout.closed_graft h.closed (Layout.closed_leaf _ _ _) fun hm => ?_
    rw [hnode]
    exact hm
  obtain ⟨g, hg, hgL, -⟩ := hwhole.markDirty hclosed (Layout.slotAt_graft_self hp rfl)
  have hstores := h.foldedAway hp htwig hfold hgL
  rw [hnode] at hstores
  show Lockstep _ (e.markDirty s >>= fun arena => _) (.ok _)
  rw [hg, ok_bind]
  refine .value ⟨hstores, ?_, rfl⟩
  exact (keeps_foldedAway t z b).trans (keeps_foldedAway (t.foldedAway z b) o g)

/-! ### Pruning -/

theorem Stores.pruneOnce_none (h : t.Stores L) (hL : L.isInner = false) :
    t.pruneOnce = .ok none := by
  rw [Tree.pruneOnce, h.holds.cheapest_none h.root hL]
  rfl

variable [Weighed V] {w : Nat}

/-- A step of pruning folds the children of the chosen node. -/
theorem Stores.pruneOnce_lockstep (h : t.Stores L) (hL : L.isInner = true) :
    Lockstep (fun found L' => ∃ step, found = some step ∧ L.PrunesOnce step.events L' ∧
      step.tree.Stores L' ∧ t.Keeps step.tree) t.pruneOnce (L.choice >>= L.foldAt) := by
  rw [Tree.pruneOnce]
  refine (h.holds.cheapest h.root hL).bind fun found p _ hchoice hfound => ?_
  obtain ⟨site, rfl, hslot, hdepth⟩ := hfound
  have htwig := (Layout.choice_ends hL (Nat.le_refl _)).of_ok hchoice
  refine (h.foldChildren hslot htwig).lead_bind fun step L' _ hfold hstep => .value ?_
  obtain ⟨hstores, hkeeps, hevents⟩ := hstep
  refine ⟨_, rfl, ?_, hstores, hkeeps⟩
  show L.PrunesOnce (.folding site.slot site.depth :: step.events) L'
  rw [hdepth, hevents]
  exact .fold hL hchoice hslot htwig hfold

theorem Stores.pruneOnce (h : t.Stores L) (hL : L.isInner = true) (hw : L.weight ≤ w) :
    Ends (Weighed.limit V < w) (fun found => ∃ step L', found = some step ∧
      L.PrunesOnce step.events L' ∧ step.tree.Stores L' ∧ t.Keeps step.tree ∧
      L'.weight ≤ L.weight) t.pruneOnce := by
  have hless : Ends (Weighed.limit V < w) (fun L' => L'.weight ≤ L.weight)
      (L.choice >>= L.foldAt) := by
    refine (Layout.choice_ends hL hw).bind fun p _ htwig => ?_
    obtain ⟨s, hs⟩ := Layout.slot?_of_isInner htwig.inner
    exact Layout.foldAt_ends hs hw
  refine ((h.pruneOnce_lockstep hL).ends hless).mono fun found hfound => ?_
  obtain ⟨L', -, ⟨step, hsome, honce, hL', hkeeps⟩, hweight⟩ := hfound
  exact ⟨step, L', hsome, honce, hL', hkeeps, hweight⟩

theorem Stores.found {step : Step V width} (h : t.Stores L)
    (hstep : t.pruneOnce = .ok (some step)) :
    ∃ L', L.PrunesOnce step.events L' ∧ step.tree.Stores L' ∧ t.Keeps step.tree := by
  cases hL : L.isInner with
  | false =>
    rw [h.pruneOnce_none hL] at hstep
    cases hstep
  | true =>
    obtain ⟨found, L', hfound, honce, hL', hkeeps, -⟩ :=
      (h.pruneOnce hL (Nat.le_refl _)).of_ok hstep
    obtain rfl := Option.some.inj hfound
    exact ⟨L', honce, hL', hkeeps⟩

/-- Pruning down to a target ends at the target, and never for lack of a node to fold. -/
theorem Stores.pruneDownTo {n : Nat} (h : t.Stores L) (hw : L.weight ≤ w) (hn : t.nodeCount ≤ n)
    (target : Nat) :
    Ends (Weighed.limit V < w) (fun step => ∃ L', L.PrunesTo target step.events L' ∧
      step.tree.Stores L' ∧ t.Keeps step.tree ∧ L'.weight ≤ L.weight) (t.pruneDownTo target n) := by
  induction n generalizing t L with
  | zero =>
    have hcounted := h.counted
    exact .value ⟨L, .done (by omega), h, .refl t, Nat.le_refl _⟩
  | succ n ih =>
    have hcounted := h.counted
    rw [Tree.pruneDownTo]
    split
    · exact .value ⟨L, .done (by omega), h, .refl t, Nat.le_refl _⟩
    · refine (h.pruneOnce (Layout.isInner_of_size (by omega)) hw).bind fun found _ hfound => ?_
      obtain ⟨step, M, rfl, honce, hM, hkeeps, hweight⟩ := hfound
      have hless := honce.size_lt
      have hcountedM := hM.counted
      refine (ih hM (Nat.le_trans hweight hw) (by omega)).bind fun last _ hlast => ?_
      obtain ⟨L', hrest, hL', hkeeps', hweight'⟩ := hlast
      exact .value ⟨L', .step (by omega) honce hrest, hL', hkeeps.trans hkeeps',
        Nat.le_trans hweight' hweight⟩

/-- Pruning to a limit prunes down to the share of the limit that the settings ask for. -/
theorem Stores.enforceLimit (h : t.Stores L) (hw : L.weight ≤ w) (limit : Nat) :
    Ends (Weighed.limit V < w) (fun step => ∃ L', L.Enforces t.config limit step.events L' ∧
      step.tree.Stores L' ∧ t.Keeps step.tree ∧ L'.weight ≤ L.weight) (t.enforceLimit limit) := by
  have hcounted := h.counted
  rw [Tree.enforceLimit]
  split
  · exact .value ⟨L, .below (by omega), h, .refl t, Nat.le_refl _⟩
  · refine (h.pruneDownTo hw (Nat.le_refl _) _).bind fun step _ hstep => ?_
    obtain ⟨L', hprunes, hL', hkeeps, hweight⟩ := hstep
    refine .value ⟨L', ?_, hL', hkeeps, hweight⟩
    have hreached : L.Enforces t.config limit _ L' := .reached (by omega) hprunes
    rwa [show L.size - 1 = t.nodeCount by omega] at hreached

end PrefixTally.Tree
