import PrefixTally.Proofs.Layout.Counting
import PrefixTally.Proofs.Tree.Rebuilding

/-! Exact counting.  A tree that has never folded a node is an exact counter: its histogram is the
reference tally, with one entry for each key whose sum is not zero, in order, and it has one node
for each bit prefix of a key.  Neither depends on the order of the adds. -/

namespace PrefixTally

variable {range : IntRange} {width : Nat}

/-! ### The reference -/

/-- The sum of what was added for a key, when keys are cut to `width` bytes. -/
def keySum (width : Nat) (key : Bytes) (adds : List (Bytes × Count range)) : Int :=
  ((adds.filter fun a => a.1.take width == key).map fun a => a.2.val).sum

/-- The bit prefixes of all keys, without the empty one. -/
def bitPrefixes {V : Type} (width : Nat) (adds : List (Bytes × V)) : Finset Path :=
  (adds.flatMap fun a => (Bits.unpack (a.1.take width)).inits).toFinset.erase []

/-- An entry has a key, with zeros after it, and a tally. -/
structure Entry.Counts (e : Entry (Count range) width) (key : Bytes) (sum : Int) : Prop where
  bytes : e.bytes.toList = key ++ List.replicate (width - key.length) 0
  depth : e.depth = 8 * key.length
  value : e.value.val = sum

/-- The entries are the keys whose sums are not zero, in order, with their sums. -/
structure Tallies (adds : List (Bytes × Count range)) (entries : List (Entry (Count range) width)) :
    Prop where
  ordered : entries.Pairwise fun a b => a.toPrefix.Before b.toPrefix
  mem_iff : ∀ e, e ∈ entries ↔ ∃ key ∈ adds.map (fun a => a.1.take width),
    keySum width key adds ≠ 0 ∧ e.Counts key (keySum width key adds)

theorem Entry.Counts.eq {e f : Entry (Count range) width} {key : Bytes} {sum : Int}
    (he : e.Counts key sum) (hf : f.Counts key sum) : e = f := by
  have hbytes : e.bytes = f.bytes := Vector.toList_inj.mp (he.bytes.trans hf.bytes.symm)
  have hdepth : e.depth = f.depth := he.depth.trans hf.depth.symm
  have hvalue : e.value = f.value := Count.ext (he.value.trans hf.value.symm)
  obtain ⟨⟨ebytes, edepth⟩, evalue⟩ := e
  obtain ⟨⟨fbytes, fdepth⟩, fvalue⟩ := f
  simp_all

section Reference

variable {adds others : List (Bytes × Count range)}
  {entries more : List (Entry (Count range) width)}

theorem keySum_perm (h : adds.Perm others) (key : Bytes) :
    keySum width key adds = keySum width key others :=
  ((h.filter _).map _).sum_eq

theorem bitPrefixes_perm {V : Type} {adds others : List (Bytes × V)} (h : adds.Perm others) :
    bitPrefixes width adds = bitPrefixes width others := by
  rw [bitPrefixes, bitPrefixes, List.toFinset_eq_of_perm _ _ (h.flatMap_right _)]

/-- The order of the adds makes no difference to the reference. -/
theorem Tallies.perm (h : Tallies adds entries) (hperm : adds.Perm others) :
    Tallies others entries where
  ordered := h.ordered
  mem_iff e := by
    rw [h.mem_iff e]
    simp only [keySum_perm hperm, (hperm.map _).mem_iff]

theorem Tallies.eq (h : Tallies adds entries) (hmore : Tallies adds more) : entries = more := by
  have hirrefl : Std.Irrefl fun a b : Entry (Count range) width => a.toPrefix.Before b.toPrefix :=
    ⟨fun a => Prefix.Before.irrefl a.toPrefix⟩
  have hantisymm : Std.Antisymm fun a b : Entry (Count range) width =>
      a.toPrefix.Before b.toPrefix := ⟨fun _ _ hab hba => absurd hba hab.asymm⟩
  exact h.ordered.eq_of_mem_iff hmore.ordered fun e => by rw [h.mem_iff, hmore.mem_iff]

end Reference

/-! ### Adding without pruning -/

namespace Tree

section Unpruned

variable {V : Type} [Tally V] {t : Tree V width} {L : Layout V}

/-- The path and the value of an add. -/
def pathAdd (width : Nat) (a : Bytes × V) : Path × V := (Bits.unpack (a.1.take width), a.2)

theorem Stores.place_pruned {key : Bytes} {x : V} {u : Tree V width} (h : t.Stores L)
    (hplace : t.place key x = .ok u) : u.pruned = t.pruned := by
  rw [h.place_eq] at hplace
  obtain ⟨last, -, hplace⟩ := exists_of_bind hplace
  obtain ⟨arena, -, hplace⟩ := exists_of_bind hplace
  rw [← Except.ok.inj hplace]

variable [Weighed V] {w : Nat}

/-- An add folds nodes away, or it only adds. -/
theorem Stores.add_or_prunes {key : Bytes} {x : V} (h : t.Stores L)
    (hw : L.weight + Weighed.weight x ≤ w) :
    Ends (Weighed.limit V < w) (fun step => ∃ L', step.tree.Stores L' ∧
      L'.weight ≤ L.weight + Weighed.weight x ∧ (t.pruned < step.tree.pruned ∨
        step.tree.pruned = t.pruned ∧ L.AddsTo (Bits.unpack (key.take width)) x L'))
      (t.add key x) := by
  rw [Tree.add]
  refine (h.enforceLimit (w := w) (by omega) _).bind fun step _ hstep => ?_
  obtain ⟨M, henforces, hM, hkeeps, hless⟩ := hstep
  refine (hM.place (w := w) (List.length_take_le _ _) (by omega)).bind fun u hplace hu => ?_
  obtain ⟨L', hadds, hL', -, hweight⟩ := hu
  refine .value ⟨L', hL', by omega, ?_⟩
  -- No node is created while the tree is pruned, so each node less is a node folded away.
  have hpruned := hM.place_pruned hplace
  have hinserted := hkeeps.inserted
  have hbalanced := h.balanced
  have hbalanced' := hM.balanced
  have hcounted := h.counted
  have hcounted' := hM.counted
  show t.pruned < u.pruned ∨ u.pruned = t.pruned ∧ _
  rcases henforces.eq_or_size_lt with rfl | hsize
  · exact .inr ⟨by omega, hadds⟩
  · exact .inl (by omega)

theorem Stores.addAll {adds : List (Bytes × V)} (h : t.Stores L)
    (hw : L.weight + (adds.map fun a => Weighed.weight a.2).sum ≤ w) :
    Ends (Weighed.limit V < w) (fun step => ∃ L', step.tree.Stores L' ∧
      t.pruned ≤ step.tree.pruned ∧ (step.tree.pruned = t.pruned →
        Layout.AddsAll (adds.map (pathAdd width)) L L')) (t.addAll adds) := by
  induction adds generalizing t L with
  | nil => exact .value ⟨L, h, Nat.le_refl _, fun _ => .nil L⟩
  | cons a rest ih =>
    obtain ⟨key, x⟩ := a
    rw [List.map_cons, List.sum_cons] at hw
    dsimp only at hw
    rw [Tree.addAll]
    refine (h.add_or_prunes (w := w) (by omega)).bind fun step _ hstep => ?_
    obtain ⟨M, hM, hless, hpruned⟩ := hstep
    refine (ih hM (by omega)).bind fun last _ hlast => .value ?_
    obtain ⟨L', hL', hle, hall⟩ := hlast
    show ∃ N, last.tree.Stores N ∧ t.pruned ≤ last.tree.pruned ∧ (last.tree.pruned = t.pruned → _)
    rcases hpruned with hmore | ⟨hsame, hadds⟩
    · exact ⟨L', hL', by omega, fun hlast => by omega⟩
    · exact ⟨L', hL', by omega, fun hlast => .cons hadds (hall (by omega))⟩

/-- What an empty tree holds after adds none of which folded anything. -/
theorem addAll_unpruned (config : Config) (adds : List (Bytes × V)) :
    Ends (Weighed.limit V < (adds.map fun a => Weighed.weight a.2).sum)
      (fun step => step.tree.pruned = 0 → ∃ L, step.tree.Stores L ∧
        Layout.AddsAll (adds.map (pathAdd width)) (.fresh Arena.root) L)
      ((empty config : Tree V width).addAll adds) := by
  refine ((stores_empty config).addAll (Nat.le_of_eq ?_)).mono fun step hstep hnone => ?_
  · rw [Layout.weight_fresh, Nat.zero_add]
  · obtain ⟨L, hL, -, hall⟩ := hstep
    exact ⟨L, hL, hall hnone⟩

end Unpruned

/-! ### The histogram -/

variable {t : Tree (Count range) width} {L : Layout (Count range)}
  {adds : List (Bytes × Count range)}

theorem addsAt_pathAdd (key : Bytes) (adds : List (Bytes × Count range)) :
    Layout.addsAt (Bits.unpack key) (adds.map (pathAdd width)) = keySum width key adds := by
  rw [Layout.addsAt, List.filter_map, List.map_map, keySum]
  refine congrArg (fun l : List (Bytes × Count range) => (l.map fun a => a.2.val).sum)
    (List.filter_congr fun a _ => ?_)
  show (Bits.unpack (a.1.take width) == Bits.unpack key) = (a.1.take width == key)
  rw [Bool.eq_iff_iff, beq_iff_eq, beq_iff_eq]
  exact ⟨Bits.unpack_injective, congrArg Bits.unpack⟩

theorem counts_ofHolding {key : Bytes} (h : key.length ≤ width) (v : Count range) :
    (Entry.ofHolding width (Bits.unpack key, v)).Counts key v.val where
  bytes := by
    show (Prefix.ofPath width (Bits.unpack key)).bytes.toList = _
    rw [Prefix.toList_ofPath, Bits.pack_unpack_of_le h]
  depth := Bits.length_unpack key
  value := rfl

/-- What is held after nothing but adds are the keys whose sums are not zero. -/
theorem mem_entries_iff {s : SlotId} {e : Entry (Count range) width}
    (hadds : Layout.AddsAll (adds.map (pathAdd width)) (.fresh s) L) :
    e ∈ L.holdings.map (Entry.ofHolding width) ↔ ∃ key ∈ adds.map (fun a => a.1.take width),
      keySum width key adds ≠ 0 ∧ e.Counts key (keySum width key adds) := by
  rw [List.mem_map]
  constructor
  · rintro ⟨⟨p, v⟩, ha, rfl⟩
    obtain ⟨hvalue, hsum⟩ := hadds.mem_holdings_iff.mp ha
    have hmem : p ∈ (adds.map (pathAdd width)).map Prod.fst := by
      by_contra hnone
      exact hsum (Layout.addsAt_of_not_mem hnone)
    rw [List.map_map] at hmem
    obtain ⟨b, hb, rfl⟩ := List.mem_map.mp hmem
    rw [Function.comp_apply, pathAdd, addsAt_pathAdd] at hvalue hsum
    refine ⟨_, List.mem_map.mpr ⟨b, hb, rfl⟩, hsum, ?_⟩
    rw [← hvalue]
    exact counts_ofHolding (List.length_take_le _ _) v
  · rintro ⟨key, hkey, hsum, hcounts⟩
    obtain ⟨b, -, rfl⟩ := List.mem_map.mp hkey
    refine ⟨(Bits.unpack (b.1.take width), e.value), hadds.mem_holdings_iff.mpr ?_, ?_⟩
    · rw [addsAt_pathAdd]
      exact ⟨hcounts.value, hsum⟩
    · refine Entry.Counts.eq (counts_ofHolding (List.length_take_le _ _) e.value) ?_
      rw [hcounts.value]
      exact hcounts

/-- A tree that holds nothing but adds holds the reference tally. -/
theorem Stores.tallies {s : SlotId} (h : t.Stores L)
    (hadds : Layout.AddsAll (adds.map (pathAdd width)) (.fresh s) L) :
    ∃ entries, t.histogram = .ok entries ∧ Tallies adds entries := by
  exact ⟨_, h.histogram_holdings, h.ordered_entries, fun e => mem_entries_iff hadds⟩

/-- A tree that holds nothing but adds has a node for each bit on the way to one of them. -/
theorem Stores.nodeCount_eq_card {s : SlotId} {adds : List (Path × Count range)} (h : t.Stores L)
    (hadds : Layout.AddsAll adds (.fresh s) L) :
    t.nodeCount = ((adds.flatMap fun a => a.1.inits).toFinset.erase []).card := by
  have hpaths : (adds.flatMap fun a => a.1.inits).toFinset.erase [] =
      ((L.stops []).map Arena.Stop.path).toFinset.erase [] := by
    ext p
    rw [Finset.mem_erase, Finset.mem_erase, List.mem_toFinset, List.mem_toFinset,
      Layout.mem_paths_iff, hadds.has_iff, Layout.has_fresh_iff]
    refine and_congr_right fun hne => ?_
    simp only [List.mem_flatMap, List.mem_inits, hne, false_or]
  have htop : [] ∈ ((L.stops []).map Arena.Stop.path).toFinset :=
    List.mem_toFinset.mpr (Layout.mem_paths_iff.mpr ⟨_, h.root⟩)
  have hcounted := h.counted
  rw [hpaths, Finset.card_erase_of_mem htop, List.toFinset_card_of_nodup (Layout.nodup_stops L []),
    List.length_map, Layout.length_stops]
  omega

theorem Stores.nodeCount_eq {s : SlotId} (h : t.Stores L)
    (hadds : Layout.AddsAll (adds.map (pathAdd width)) (.fresh s) L) :
    t.nodeCount = (bitPrefixes width adds).card := by
  rw [h.nodeCount_eq_card hadds, List.flatMap_map]
  rfl

/-- A tree that has counted adds without folding anything. -/
structure Counted (t : Tree (Count range) width) (adds : List (Bytes × Count range)) : Prop where
  histogram : ∃ entries, t.histogram = .ok entries ∧ Tallies adds entries
  nodeCount : t.nodeCount = (bitPrefixes width adds).card

theorem addAll_counted (config : Config) (adds : List (Bytes × Count range)) :
    Ends (range.reach < (adds.map fun a => a.2.val.natAbs).sum)
      (fun step => step.tree.pruned = 0 → step.tree.Counted adds)
      ((empty config : Tree (Count range) width).addAll adds) := by
  refine (addAll_unpruned config adds).mono fun step hstep hnone => ?_
  obtain ⟨L, hL, hadds⟩ := hstep hnone
  exact ⟨hL.tallies hadds, hL.nodeCount_eq hadds⟩

/-- Trees that have counted the same adds in any order show the same. -/
theorem Counted.congr {u : Tree (Count range) width} {others : List (Bytes × Count range)}
    (h : t.Counted adds) (hu : u.Counted others) (hperm : adds.Perm others) :
    t.histogram = u.histogram ∧ t.nodeCount = u.nodeCount := by
  obtain ⟨entries, hentries, htallies⟩ := h.histogram
  obtain ⟨more, hmore, hothers⟩ := hu.histogram
  refine ⟨?_, ?_⟩
  · rw [hentries, hmore, (htallies.perm hperm).eq hothers]
  · rw [h.nodeCount, hu.nodeCount, bitPrefixes_perm hperm]

end Tree

end PrefixTally
