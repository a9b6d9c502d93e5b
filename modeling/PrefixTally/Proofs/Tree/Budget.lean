import PrefixTally.Proofs.Tree.Folds
import PrefixTally.Proofs.Tree.Rebuilding
import PrefixTally.Proofs.Tree.Safety

/-! The budget of nodes.  A tree starts an add with no more nodes than its budget, because it prunes
before, and the add creates at most one node for each bit of the key.  No other change adds nodes,
not even rebuilding the tree from its own entries, and the arena grows only when all its slots are
in use.  Hence the budget holds, up to the nodes of one key, after any changes in any order. -/

namespace PrefixTally

/-- A change of a tree: an operation, or its replacement by a tree made of its own entries. -/
inductive Change (V : Type) where
  | operation (op : Operation V)
  | rebuild

/-- The most nodes after a change of a tree that has at most `nodes` of them. -/
def Change.bound {V : Type} (config : Config) (width nodes : Nat) : Change V → Nat
  | .operation (.add key _) => config.maxNodes + 8 * min key.length width
  | _ => nodes

theorem Change.bound_le {V : Type} {config : Config} {width nodes : Nat}
    (h : config.maxNodes + 8 * width ≤ nodes) (c : Change V) :
    c.bound config width nodes ≤ nodes := by
  unfold bound
  split
  · omega
  · exact Nat.le_refl _

/-- An operation on a layout keeps the bound, which counts the nodes below the top. -/
theorem Layout.Does.size_le {V : Type} [Tally V] {config : Config} {width nodes : Nat}
    {L L' : Layout V} {op : Operation V} {reply : Reply V} (h : L.Does config width op reply L')
    (hvalid : config.Valid) (hL : L.size ≤ nodes + 1) :
    L'.size ≤ (Change.operation op).bound config width nodes + 1 := by
  cases h with
  | @add key value events M _ henforces hadds =>
    -- However many nodes there were, only as many as the budget are left before the key is placed.
    have hlimited := (henforces.size_le hvalid).1
    have hadded := hadds.size_le
    rw [Bits.length_unpack, List.length_take] at hadded
    show L'.size ≤ config.maxNodes + 8 * min key.length width + 1
    omega
  | fold honce => exact Nat.le_trans (Nat.le_of_lt honce.size_lt) hL
  | nothing => exact hL
  | enforce henforces => exact Nat.le_trans (henforces.size_le hvalid).2 hL
  | clean => exact Nat.le_trans (Nat.le_of_eq (measure_plain _ L)) hL
  | copy => exact hL

namespace Tree

variable {V : Type} [Tally V] {width : Nat} {t u : Tree V width} {L : Layout V} {config : Config}

/-- The tree after a change. -/
def change (t : Tree V width) : Change V → Except Failure (Tree V width)
  | .operation op => do
    let (t, _) ← (t.apply op).orStop
    return t
  | .rebuild => do
    let entries ← t.histogram.orStop
    ofEntries t.config entries

/-- The tree after all changes of a list. -/
def changeAll (t : Tree V width) (changes : List (Change V)) : Except Failure (Tree V width) :=
  changes.foldlM change t

/-! ### Slots -/

section Slots

variable {P : Arena V → Prop} (hP : Arena.Lasts P)
include hP

theorem tallyAt_lasts {p : Path} {x : V} {remember : SlotId → Cache} (ht : P t.arena)
    (h : t.tallyAt p x remember = .ok u) : P u.arena := by
  obtain ⟨last, hwalk, h⟩ := exists_of_bind h
  obtain ⟨b, hadd, h⟩ := exists_of_bind h
  obtain rfl := Except.ok.inj h
  exact hP.add (hP.ensurePath ht hwalk) hadd

theorem place_lasts {key : Bytes} {x : V} (ht : P t.arena) (h : t.place key x = .ok u) :
    P u.arena := by
  obtain ⟨arena, cache, config, nodeCount, inserted, pruned⟩ := t
  rw [Tree.place] at h
  dsimp only at h
  split at h
  · obtain ⟨b, hadd, h⟩ := exists_of_bind h
    obtain rfl := Except.ok.inj h
    exact hP.add ht hadd
  · obtain ⟨last, hwalk, h⟩ := exists_of_bind h
    obtain ⟨b, hadd, h⟩ := exists_of_bind h
    obtain rfl := Except.ok.inj h
    exact hP.add (hP.ensurePath ht hwalk) hadd

theorem addEntries_lasts {entries : List (Entry V width)} (ht : P t.arena)
    (h : entries.foldlM addEntry t = .ok u) : P u.arena := by
  refine of_foldlM (P := fun v => P v.arena) (fun v e _ hv hadd => ?_) ht h
  rw [addEntry_eq] at hadd
  split at hadd
  · cases hadd
  · exact tallyAt_lasts hP hv (exists_of_orStop hadd)

end Slots

/-- An operation leaves the number of slots as it is, or ends with placing a key in a tree that has
as many slots. -/
theorem apply_slotCount {op : Operation V} {done : Tree V width × Reply V}
    (h : t.apply op = .ok done) : done.1.arena.slotCount = t.arena.slotCount ∨
      ∃ (limited : Tree V width) (key : Bytes) (x : V),
        limited.arena.slotCount = t.arena.slotCount ∧ limited.place key x = .ok done.1 := by
  obtain ⟨u, reply⟩ := done
  cases applies_of_apply h with
  | add hlimit hplace =>
    exact .inr ⟨_, _, _, (folds_of_enforceLimit hlimit).slotCount, hplace⟩
  | fold hfound => exact .inl (folds_of_pruneOnce hfound).slotCount
  | nothing => exact .inl rfl
  | enforce hlimit => exact .inl (folds_of_enforceLimit hlimit).slotCount
  | clean => exact .inl Array.size_map
  | copy => exact .inl rfl

/-- An operation leaves the number of slots as it is, or leaves no slot free. -/
theorem apply_slots {op : Operation V} {done : Tree V width × Reply V}
    (h : t.apply op = .ok done) :
    done.1.arena.slotCount = t.arena.slotCount ∨ done.1.arena.free = [] := by
  rcases apply_slotCount h with hsame | ⟨limited, key, x, hsame, hplace⟩
  · exact .inl hsame
  · have htakes := place_lasts (Arena.lasts_takes limited.arena) (.refl _) hplace
    exact htakes.slots.imp_left fun hslots => hslots.trans hsame

/-- A tree without free slots has one for each node and one for the root. -/
theorem Stores.slotCount_of_free (h : t.Stores L) (hfree : t.arena.free = []) :
    t.arena.slotCount = t.nodeCount + 1 := by
  rw [h.sound.slots, hfree, List.length_nil]
  omega

/-! ### Changes -/

/-- A tree of at most `nodes` nodes, with no more slots than as many as `slots` nodes and the root
need. -/
structure Within (config : Config) (nodes slots : Nat) (t : Tree V width) : Prop where
  stores : ∃ L, t.Stores L
  config : t.config = config
  nodes : t.nodeCount ≤ nodes
  slots : t.arena.slotCount ≤ slots + 1

variable {nodes slots : Nat}

theorem Within.mono {more : Nat} (h : t.Within config nodes slots) (hmore : nodes ≤ more) :
    t.Within config more slots :=
  ⟨h.stores, h.config, Nat.le_trans h.nodes hmore, h.slots⟩

theorem within_empty (config : Config) (nodes slots : Nat) :
    (empty config : Tree V width).Within config nodes slots :=
  ⟨⟨_, stores_empty config⟩, rfl, Nat.zero_le _, Nat.le_add_left _ _⟩

variable [Weighed V]

theorem Within.operation {op : Operation V} (h : t.Within config nodes slots)
    (hvalid : config.Valid) (hroom : (Change.operation op).bound config width nodes ≤ slots) :
    Yields (Within config ((Change.operation op).bound config width nodes) slots)
      (t.change (.operation op)) := by
  obtain ⟨⟨L, hL⟩, rfl, hnodes, hslots⟩ := h
  have hcounted := hL.counted
  refine (Yields.of_ends ((hL.apply op (Nat.le_refl _)).imp
    (Q := fun done : Tree V width × Reply V => done.1.Within t.config _ slots)
    id fun done happly hdone => ?_)).bind fun done hdone => .value hdone
  obtain ⟨L', hdoes, hL', hconfig, -⟩ := hdone
  have hsize := hdoes.size_le hvalid (by omega : L.size ≤ nodes + 1)
  have hcounted' := hL'.counted
  refine ⟨⟨L', hL'⟩, hconfig, by omega, ?_⟩
  rcases apply_slots happly with hsame | hfree
  · omega
  · rw [hL'.slotCount_of_free hfree]
    omega

theorem Within.rebuild (h : t.Within config nodes slots) (hvalid : config.Valid)
    (hroom : nodes ≤ slots) : Yields (Within config nodes slots) (t.change .rebuild) := by
  obtain ⟨⟨L, hL⟩, rfl, hnodes, -⟩ := h
  have hcounted := hL.counted
  have hmade := ofEntries_settles t.config (L.holdings.map (Entry.ofHolding width))
  rw [Tree.change, hL.histogram_holdings]
  show Yields _ (ofEntries t.config (L.holdings.map (Entry.ofHolding width)))
  rw [ofEntries_of_valid hvalid] at hmade ⊢
  refine (Yields.of_settles hmade (addEntries_ne_refused fun e he => ?_)).imp fun r hr hstores => ?_
  · obtain ⟨a, ha, rfl⟩ := List.mem_map.mp he
    exact hL.length_holding_le a ha
  · obtain ⟨M, hM, hconfig, -, hadds⟩ := hstores
    rw [hL.map_holding] at hadds
    have hsize := hadds.size_le ⟨_, hL.root⟩
    have hcountedM := hM.counted
    -- Entries are added to an arena without free slots, so none of its slots is left over.
    have hfree : r.arena.free = [] := List.suffix_nil.mp
      (addEntries_lasts (Arena.lasts_takes _) (.refl _) hr).free
    refine ⟨⟨M, hM⟩, hconfig, by omega, ?_⟩
    rw [hM.slotCount_of_free hfree]
    omega

theorem Within.change (h : t.Within config nodes slots) (hvalid : config.Valid) (c : Change V)
    (hroom : c.bound config width nodes ≤ slots) :
    Yields (Within config (c.bound config width nodes) slots) (t.change c) := by
  cases c with
  | operation op => exact h.operation hvalid hroom
  | rebuild => exact h.rebuild hvalid hroom

theorem Within.changeAll (h : t.Within config nodes slots) (hvalid : config.Valid)
    (hkey : config.maxNodes + 8 * width ≤ nodes) (hroom : nodes ≤ slots)
    (changes : List (Change V)) :
    Yields (Within config nodes slots) (t.changeAll changes) :=
  Yields.foldlM (fun _ c hu =>
    have hbound := c.bound_le hkey
    (hu.change hvalid c (Nat.le_trans hbound hroom)).imp fun _ _ hnext => hnext.mono hbound)
    h changes

theorem Within.changeAll_add (h : t.Within config nodes slots) (hvalid : config.Valid)
    (hkey : config.maxNodes + 8 * width ≤ nodes) (hroom : nodes ≤ slots)
    (before : List (Change V)) (key : Bytes) (value : V) :
    Yields (Within config (config.maxNodes + 8 * min key.length width) slots)
      (t.changeAll (before ++ [.operation (.add key value)])) := by
  rw [Tree.changeAll, List.foldlM_append]
  refine (h.changeAll hvalid hkey hroom before).bind fun u hu => ?_
  rw [List.foldlM_cons]
  refine (hu.change hvalid (.operation (.add key value)) ?_).bind fun v hv => .value hv
  show config.maxNodes + 8 * min key.length width ≤ slots
  omega

/-- A tree that starts empty never has more nodes than its budget and one key need, nor more slots
than these nodes and the root need.  However a tree starts, its nodes are within the budget and the
bits of the key after an add, and within the budget and one key from the first add on. -/
theorem changes_within_budget (hvalid : config.Valid) :
    (∀ changes : List (Change V),
      Yields (fun t => t.nodeCount ≤ config.maxNodes + 8 * width ∧
          t.arena.slotCount ≤ config.maxNodes + 8 * width + 1)
        ((empty config : Tree V width).changeAll changes)) ∧
    ∀ start : Tree V width,
      start = empty config ∨ (∃ entries, ofEntries config entries = .ok start) →
      ∀ (before : List (Change V)) (key : Bytes) (value : V),
        Yields (fun t => t.nodeCount ≤ config.maxNodes + 8 * min key.length width)
          (start.changeAll (before ++ [.operation (.add key value)])) ∧
        ∀ later : List (Change V),
          Yields (fun t => t.nodeCount ≤ config.maxNodes + 8 * width)
            (start.changeAll (before ++ .operation (.add key value) :: later)) := by
  constructor
  · intro changes
    have hempty : (empty config : Tree V width).Within config (config.maxNodes + 8 * width)
        (config.maxNodes + 8 * width) := within_empty _ _ _
    exact (hempty.changeAll hvalid (Nat.le_refl _) (Nat.le_refl _) changes).imp
      fun t _ ht => ⟨ht.nodes, ht.slots⟩
  · intro start hstart before key value
    -- What comes before the add keeps the nodes and slots below a bound that depends on the start.
    have hwithin : start.Within config (start.nodeCount + config.maxNodes + 8 * width)
        (start.arena.slotCount + start.nodeCount + config.maxNodes + 8 * width) := by
      have hstores : (∃ L, start.Stores L) ∧ start.config = config := by
        rcases hstart with rfl | ⟨entries, hentries⟩
        · exact ⟨⟨_, stores_empty config⟩, rfl⟩
        · obtain ⟨L, hL, hconfig, -⟩ := (ofEntries_settles config entries).of_ok hentries
          exact ⟨⟨L, hL⟩, hconfig⟩
      exact ⟨hstores.1, hstores.2, by omega, by omega⟩
    have hadd := hwithin.changeAll_add hvalid (by omega) (by omega) before key value
    refine ⟨hadd.imp fun t _ ht => ht.nodes, fun later => ?_⟩
    rw [List.append_cons, Tree.changeAll, List.foldlM_append]
    refine hadd.bind fun u hu => ?_
    have hkey : u.Within config (config.maxNodes + 8 * width) _ := hu.mono (by omega)
    exact (hkey.changeAll hvalid (Nat.le_refl _) (by omega) later).imp fun t _ ht => ht.nodes

/-- A budget smaller than a key, which a tree exceeds by all bits of a key: one that starts empty
and is rebuilt on the way, and one that starts from an entry. -/
theorem changes_within_budget_of_adds :
    (∃ t, (empty ⟨3, 0, 100⟩ : Tree (Count (.unsigned 8)) 1).changeAll
        [.operation (.add [0] ⟨5, by decide, by decide⟩), .rebuild,
          .operation (.add [128] ⟨7, by decide, by decide⟩)] = .ok t ∧
      t.nodeCount = 11 ∧ t.nodeCount ≤ 3 + 8 * 1 ∧ t.arena.slotCount ≤ 3 + 8 * 1 + 1) ∧
    ∃ start t : Tree (Count (.unsigned 8)) 1,
      ofEntries ⟨3, 0, 100⟩ [⟨⟨#v[0], 8⟩, ⟨5, by decide, by decide⟩⟩] = .ok start ∧
      start.nodeCount = 8 ∧
      start.changeAll [.operation (.add [128] ⟨7, by decide, by decide⟩)] = .ok t ∧
      t.nodeCount = 11 ∧ t.nodeCount ≤ 3 + 8 * min 1 1 := by
  have hvalid : (⟨3, 0, 100⟩ : Config).Valid := by decide
  have hempty : (do
      let t ← (empty ⟨3, 0, 100⟩ : Tree (Count (.unsigned 8)) 1).changeAll
        [.operation (.add [0] ⟨5, by decide, by decide⟩), .rebuild,
          .operation (.add [128] ⟨7, by decide, by decide⟩)]
      return t.nodeCount) = .ok 11 := by
    decide +kernel
  have hentries : (do
      let start : Tree (Count (.unsigned 8)) 1 ←
        ofEntries ⟨3, 0, 100⟩ [⟨⟨#v[0], 8⟩, ⟨5, by decide, by decide⟩⟩]
      let t ← start.changeAll [.operation (.add [128] ⟨7, by decide, by decide⟩)]
      return (start.nodeCount, t.nodeCount)) = .ok (8, 11) := by
    decide +kernel
  constructor
  · obtain ⟨t, hchanges, hcount⟩ := exists_of_bind hempty
    have hbounds := ((changes_within_budget hvalid).1 _).of_ok hchanges
    exact ⟨t, hchanges, Except.ok.inj hcount, hbounds.1, hbounds.2⟩
  · obtain ⟨start, hstart, hmap⟩ := exists_of_bind hentries
    obtain ⟨t, hchanges, hcounts⟩ := exists_of_bind hmap
    obtain ⟨hbefore, hcount⟩ := Prod.mk.inj (Except.ok.inj hcounts)
    have hbound := (((changes_within_budget hvalid).2 start (.inr ⟨_, hstart⟩) [] [128] _).1).of_ok
      hchanges
    exact ⟨start, t, hstart, hbefore, hchanges, hcount, hbound⟩

end Tree

end PrefixTally
