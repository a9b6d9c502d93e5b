import PrefixTally.Proofs.Arena.Sound
import PrefixTally.Proofs.Layout.Erasure
import PrefixTally.Proofs.Tree.Operation
import PrefixTally.Proofs.Trie.Cheapest

/-! The candidate of a tree.  A node can be folded when it has children and none of them has any.
The candidate is the best of all such nodes: it has the smallest total, of those with that total it
lies deepest, and of these its bytes come last.  No other node is as good. -/

namespace PrefixTally

variable {range : IntRange}

/-! ### Sites of a layout -/

namespace Layout

variable {L : Layout (Count range)} {p : Path}

theorem isInner_trie (L : Layout (Count range)) : L.trie.isInner = L.isInner := by
  cases L with
  | absent => rfl
  | node s v d z o =>
    rw [trie_node, Trie.isInner, isAbsent_trie, isAbsent_trie, isInner_node, Bool.not_and,
      Bool.not_not, Bool.not_not]

theorem hasSite_of_isTwig (h : (L.sub p).IsTwig) :
    L.trie.HasSite ⟨p, (L.sub p).trie.total⟩ := by
  induction p generalizing L with
  | nil =>
    obtain ⟨s, hs⟩ := slot?_of_isInner h.inner
    obtain ⟨v, d, z, o, rfl⟩ := slot?_eq_some_iff.mp hs
    refine .top ?_ ?_ ?_
    · exact (isInner_trie (node s v d z o)).trans h.inner
    · exact (isInner_trie z).trans (h.leaves false)
    · exact (isInner_trie o).trans (h.leaves true)
  | cons bit rest ih =>
    cases L with
    | absent =>
      have hinner := h.inner
      rw [sub_absent] at hinner
      cases hinner
    | node s v d z o =>
      cases bit with
      | false => exact .zero (ih h)
      | true => exact .one (ih h)

theorem isTwig_of_hasSite {u : Trie.Site} (h : L.trie.HasSite u) :
    (L.sub u.path).IsTwig ∧ u.total = (L.sub u.path).trie.total := by
  induction L generalizing u with
  | absent => cases h
  | node s v d z o ihz iho =>
    cases h with
    | top hinner hz ho =>
      rw [← trie_node s v d, isInner_trie] at hinner
      rw [isInner_trie] at hz ho
      refine ⟨⟨hinner, fun bit => ?_⟩, rfl⟩
      cases bit
      · exact hz
      · exact ho
    | zero h => exact ihz h
    | one h => exact iho h

/-- The choice precedes all other nodes that can be folded. -/
theorem choice_first (hL : L.isInner = true) (h : L.choice = .ok p) :
    L.trie.IsFirst ⟨p, (L.sub p).trie.total⟩ := by
  obtain ⟨u, hu, hfirst⟩ := Trie.exists_cheapest ((isInner_trie L).trans hL)
  obtain rfl := Option.some.inj ((cheapest_trie hL h).symm.trans hu)
  exact hfirst

theorem total_trie_leaf {s : SlotId} {v : Count range} {d : Bool} {z o : Layout (Count range)}
    (h : (node s v d z o).isInner = false) : (node s v d z o).trie.total = v.val := by
  rcases eq_of_not_isInner h with hnone | ⟨_, _, _, hnode⟩
  · cases hnone
  · cases hnode
    simp [Trie.total]

theorem isInner_iff {V : Type} {L : Layout V} {s : SlotId} (hs : L.slot? = some s) :
    L.isInner = true ↔ 1 < L.size := by
  refine ⟨fun h => ?_, isInner_of_size⟩
  obtain ⟨v, d, z, o, rfl⟩ := slot?_eq_some_iff.mp hs
  rw [isInner_node, Bool.or_eq_true] at h
  rw [size_node]
  have := h.imp size_pos size_pos
  omega

end Layout

/-! ### Nodes that can be folded -/

/-- What a childless node behind a link holds; nothing where there is no link. -/
inductive Arena.LeafHolds (a : Arena (Count range)) : Option SlotId → Int → Prop
  | absent : LeafHolds a none 0
  | leaf {c : SlotId} {node : Node (Count range)} : a.get c = .ok node →
      node.hasChildren = false → LeafHolds a (some c) node.value.val

namespace Tree

variable {width : Nat} {t : Tree (Count range) width} {L : Layout (Count range)} {p : Path}
  {n : Int}

/-- The node at the end of a path has children and no grandchildren, and `n` is what it holds
together with its children. -/
inductive Foldable (t : Tree (Count range) width) : Path → Int → Prop
  | node {p : Path} {s : SlotId} {node : Node (Count range)} {x y : Int} : t.arena.Leads p s →
      t.arena.get s = .ok node → node.hasChildren = true → t.arena.LeafHolds node.zero x →
      t.arena.LeafHolds node.one y → Foldable t p (node.value.val + x + y)

/-- A node that can be folded is better than any other one: its total is smaller, or it lies deeper,
or its bytes come later. -/
structure Best (t : Tree (Count range) width) (c : Candidate (Count range) width) : Prop where
  prefix_eq : c.toPrefix = Prefix.ofPath width c.path
  foldable : t.Foldable c.path c.total.val
  better : ∀ p n, t.Foldable p n → p ≠ c.path → c.total.val < n ∨ c.total.val = n ∧
    (p.length < c.depth ∨ p.length = c.depth ∧
      (Prefix.ofPath width p).bytes.toList < c.bytes.toList)

theorem leafHolds_iff {a : Arena (Count range)} {up : Option SlotId} {C : Layout (Count range)}
    (h : a.Lays up C) : a.LeafHolds C.slot? n ↔ C.isInner = false ∧ n = C.trie.total := by
  cases C with
  | absent =>
    constructor
    · intro hn
      cases hn
      exact ⟨rfl, rfl⟩
    · rintro ⟨-, rfl⟩
      exact .absent
  | node s v d z o =>
    have hget := h.1
    constructor
    · intro hn
      cases hn with
      | leaf hget' hleaf =>
        obtain rfl := Except.ok.inj (hget.symm.trans hget')
        exact ⟨hleaf, (Layout.total_trie_leaf hleaf).symm⟩
    · rintro ⟨hleaf, rfl⟩
      rw [Layout.total_trie_leaf hleaf]
      exact .leaf hget hleaf

/-- The nodes that can be folded are the twigs of the layout. -/
theorem Stores.foldable_iff (h : t.Stores L) :
    t.Foldable p n ↔ (L.sub p).IsTwig ∧ n = (L.sub p).trie.total := by
  constructor
  · intro hn
    cases hn with
    | @node s node x y hlead hget hchildren hx hy =>
      have hs := (h.holds.leads_iff h.root).mp hlead
      obtain ⟨up, hlays⟩ := h.holds.lays.sub hs
      obtain ⟨v, d, z, o, hnode⟩ := Layout.slot?_eq_some_iff.mp hs
      rw [hnode] at hlays ⊢
      -- The node that is read is the one of the layout, so its links lead to the two sides.
      obtain rfl := Except.ok.inj (hlays.1.symm.trans hget)
      obtain ⟨hz, rfl⟩ := (leafHolds_iff hlays.2.1).mp hx
      obtain ⟨ho, rfl⟩ := (leafHolds_iff hlays.2.2).mp hy
      refine ⟨⟨hchildren, fun bit => ?_⟩, rfl⟩
      cases bit
      · exact hz
      · exact ho
  · rintro ⟨htwig, rfl⟩
    obtain ⟨s, hs⟩ := Layout.slot?_of_isInner htwig.inner
    obtain ⟨up, hlays⟩ := h.holds.lays.sub (p := p) hs
    obtain ⟨v, d, z, o, hnode⟩ := Layout.slot?_eq_some_iff.mp hs
    rw [hnode] at hlays htwig ⊢
    have hzero := (leafHolds_iff hlays.2.1).mpr ⟨htwig.leaves false, rfl⟩
    have hone := (leafHolds_iff hlays.2.2).mpr ⟨htwig.leaves true, rfl⟩
    exact .node ((h.holds.leads_iff h.root).mpr hs) hlays.1 htwig.inner hzero hone

theorem Stores.best (h : t.Stores L) (hL : L.isInner = true) (hp : L.choice = .ok p)
    {total : Count range} (htotal : (L.sub p).total = .ok total) :
    t.Best { Prefix.ofPath width p with total } := by
  have hfirst := Layout.choice_first hL hp
  have htwig := (Layout.isTwig_of_hasSite hfirst.site).1
  obtain ⟨s, hs⟩ := Layout.slot?_of_isInner htwig.inner
  have hpath : (Prefix.ofPath width p).path = p := Prefix.path_ofPath (h.length_path_le hs)
  have hsum := Layout.total_trie htotal
  refine ⟨?_, ?_, ?_⟩
  · show Prefix.ofPath width p = Prefix.ofPath width (Prefix.ofPath width p).path
    rw [hpath]
  · refine h.foldable_iff.mpr ?_
    show (L.sub (Prefix.ofPath width p).path).IsTwig ∧ _
    rw [hpath]
    exact ⟨htwig, hsum⟩
  · intro q n hq hne
    change q ≠ (Prefix.ofPath width p).path at hne
    rw [hpath] at hne
    obtain ⟨hqtwig, rfl⟩ := h.foldable_iff.mp hq
    have hbefore := (hfirst.first _ (Layout.hasSite_of_isTwig hqtwig)).resolve_left fun he =>
      hne (congrArg Trie.Site.path he)
    show total.val < _ ∨ total.val = _ ∧ (q.length < p.length ∨ q.length = p.length ∧ _)
    rw [hsum]
    refine hbefore.imp id fun hsame => ⟨hsame.1, hsame.2.imp id fun hlast => ⟨hlast.1, ?_⟩⟩
    exact Prefix.bytes_lt_ofPath hlast.2 hlast.1 (h.length_path_le hs)

theorem Stores.best_unique {c d : Candidate (Count range) width} (h : t.Stores L) (hc : t.Best c)
    (hd : t.Best d) : d = c := by
  have hdepth : ∀ {e : Candidate (Count range) width}, t.Best e → e.depth = e.path.length :=
    fun he => congrArg Prefix.depth he.prefix_eq
  have hbytes : ∀ {e : Candidate (Count range) width}, t.Best e →
      (Prefix.ofPath width e.path).bytes = e.bytes :=
    fun he => congrArg Prefix.bytes he.prefix_eq.symm
  have hsame : d.path = c.path := by
    by_contra hne
    have hcd := hc.better _ _ hd.foldable hne
    have hdc := hd.better _ _ hc.foldable (Ne.symm hne)
    rw [← hdepth hd, hbytes hd] at hcd
    rw [← hdepth hc, hbytes hc] at hdc
    have hasymm : c.bytes.toList < d.bytes.toList → ¬d.bytes.toList < c.bytes.toList :=
      List.lt_asymm
    grind
  have htotal : d.total = c.total := by
    have hcn := (h.foldable_iff.mp hc.foldable).2
    have hdn := (h.foldable_iff.mp hd.foldable).2
    rw [hsame] at hdn
    exact Count.ext (hdn.trans hcn.symm)
  have hprefix : d.toPrefix = c.toPrefix := by rw [hd.prefix_eq, hc.prefix_eq, hsame]
  cases c
  cases d
  simp_all

/-- The candidate of a tree that was reached is the best node to fold, and the only one; there is
none exactly when only the root is left. -/
theorem reached_candidate_best {w : Nat} (h : t.Reached w) :
    Ends (∃ p n s, t.Foldable p n ∧ t.arena.Leads p s ∧ t.arena.total s = .error .overflow)
      (fun found => (found = none ↔ t.nodeCount = 0) ∧
        ∀ c, found = some c → t.Best c ∧ ∀ d, t.Best d → d = c) t.candidate := by
  obtain ⟨L, hL, -⟩ := h.stores
  have hcount := hL.counted
  have hinner := Layout.isInner_iff hL.root
  rw [hL.candidate]
  split
  · rename_i hchildren
    rw [hchildren] at hinner
    have hover : (∃ p, (L.sub p).IsTwig ∧ (L.sub p).total = .error .overflow) →
        ∃ p n s, t.Foldable p n ∧ t.arena.Leads p s ∧ t.arena.total s = .error .overflow := by
      rintro ⟨p, htwig, hsum⟩
      obtain ⟨s, hs⟩ := Layout.slot?_of_isInner htwig.inner
      refine ⟨p, _, s, hL.foldable_iff.mpr ⟨htwig, rfl⟩, (hL.holds.leads_iff hL.root).mpr hs, ?_⟩
      rw [hL.holds.lays.total hs hL.holds.size_le, hsum]
    refine ((Layout.choice_ends_twig hchildren).imp hover fun _ _ hp => hp).bind
      fun p hp htwig => ?_
    refine ((Layout.total_ends (Nat.le_refl _)).self.imp (fun hsum => hover ⟨p, htwig, hsum⟩)
      fun _ _ hsum => hsum.1).bind fun total _ htotal => .value ⟨?_, ?_⟩
    · refine ⟨nofun, fun hnone => ?_⟩
      have hsize := hinner.mp rfl
      omega
    · rintro c ⟨⟩
      have hbest := hL.best hchildren hp htotal
      exact ⟨hbest, fun d hd => hL.best_unique hbest hd⟩
  · rename_i hchildren
    refine .value ⟨⟨fun _ => ?_, fun _ => rfl⟩, nofun⟩
    rw [hinner] at hchildren
    omega

/-- Two nodes with the same total at the same depth, of which the one with the later bytes is the
candidate. -/
theorem reached_candidate_best_of_tie : ∃ (t : Tree (Count (.unsigned 8)) 1)
    (c : Candidate (Count (.unsigned 8)) 1), t.Reached 10 ∧ t.candidate = .ok (some c) ∧
      c.bytes.toList = [128] ∧ c.depth = 7 ∧ c.total.val = 5 ∧ t.Best c := by
  have hrun : ∃ done, (empty .standard : Tree (Count (.unsigned 8)) 1).run
      [.add [0] ⟨2, by decide, by decide⟩, .add [1] ⟨3, by decide, by decide⟩,
        .add [128] ⟨5, by decide, by decide⟩] = .ok done ∧ ∃ c, done.1.candidate = .ok (some c) ∧
      c.bytes.toList = [128] ∧ c.depth = 7 ∧ c.total.val = 5 :=
    ⟨_, rfl, _, rfl, rfl, rfl, rfl⟩
  obtain ⟨⟨t, replies⟩, hrun, c, hcandidate, hbytes, hdepth, htotal⟩ := hrun
  have hreached : t.Reached 10 := (Reached.empty (by decide)).run hrun
  have hbest := (reached_candidate_best hreached).of_ok hcandidate
  exact ⟨t, c, hreached, hcandidate, hbytes, hdepth, htotal, (hbest.2 c rfl).1⟩

end Tree

end PrefixTally
