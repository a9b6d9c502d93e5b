import PrefixTally.Proofs.Prefix.Normal
import PrefixTally.Proofs.Tree.Conservation
import PrefixTally.Proofs.Tree.Counting

/-! A tree from any entries.  The entries need not come from a tree: they may repeat, come in any
order, cancel each other, and have keys with bits past those that count.  The tree that is made of
them holds their normal form and has one node for each bit prefix of an entry, whatever its budget
is.  An entry that is too deep is refused, the first one if there are several, unless the settings
are refused already. -/

namespace PrefixTally.Tree

section Entries

variable {V : Type} [Tally V] [Weighed V] {width : Nat} {config : Config}
  {entries before after : List (Entry V width)} {e : Entry V width}

theorem exists_addEntries (config : Config) (hdepth : ∀ e ∈ entries, e.depth ≤ 8 * width)
    (hfits : (entries.map fun e => Weighed.weight e.value).sum ≤ Weighed.limit V) :
    ∃ t, entries.foldlM addEntry (empty config) = .ok t ∧ ∃ L, t.Stores L ∧ t.config = config ∧
      Layout.AddsAll (entries.map Entry.holding) (.fresh Arena.root) L := by
  obtain ⟨t, ht, L, hL, hconfig, -, hadds⟩ :=
    ((stores_empty config).addEntries (w := Weighed.limit V) (by
      rw [Layout.weight_fresh, Nat.zero_add]
      exact hfits)).exists_ok (Nat.lt_irrefl _) (addEntries_ne_refused hdepth)
  exact ⟨t, ht, L, hL, hconfig, hadds⟩

/-- The first entry that is too deep is refused, once those before it were added. -/
theorem ofEntries_of_deep (hvalid : config.Valid)
    (hbefore : ∀ e ∈ before, e.depth ≤ 8 * width) (he : 8 * width < e.depth)
    (hfits : (before.map fun e => Weighed.weight e.value).sum ≤ Weighed.limit V) :
    ofEntries config (before ++ e :: after) =
      .error (.refused (.depthOutOfRange e.depth (8 * width))) := by
  -- The entries before it fit, so they do not end in an overflow first.
  obtain ⟨t, ht, -⟩ := exists_addEntries config hbefore hfits
  rw [ofEntries_of_valid hvalid, List.foldlM_append, ht]
  show (e :: after).foldlM addEntry t = _
  rw [List.foldlM_cons, addEntry_eq, if_pos he]
  rfl

end Entries

variable {range : IntRange} {width : Nat} {t u : Tree (Count range) width}
  {L : Layout (Count range)} {config : Config}
  {entries others : List (Entry (Count range) width)}

/-- The tree holds the normal form of the entries, has one node for each bit prefix of them, and none
of its nodes was folded away. -/
structure Collects (t : Tree (Count range) width) (entries : List (Entry (Count range) width)) :
    Prop where
  histogram : ∃ held, t.histogram = .ok held ∧
    (held.map fun e => (e.toPrefix, e.value.val)) = Entry.normalForm entries
  nodeCount : t.nodeCount = (Entry.bitPrefixes entries).card
  inserted : t.inserted = (Entry.bitPrefixes entries).card
  pruned : t.pruned = 0

theorem masked_eq_iff {e : Entry (Count range) width} {p : Path} (he : e.depth ≤ 8 * width)
    (hp : p.length ≤ 8 * width) : e.masked = Prefix.ofPath width p ↔ e.path = p := by
  rw [Prefix.masked_eq he]
  constructor
  · intro hsame
    have hpaths := congrArg Prefix.path hsame
    rwa [Prefix.path_ofPath (Prefix.length_path_le he), Prefix.path_ofPath hp] at hpaths
  · rintro rfl
    rfl

/-- What is added at a path is what the entries with the prefix of the path add up to. -/
theorem addsAt_holding (hdepth : ∀ e ∈ entries, e.depth ≤ 8 * width) {p : Path}
    (hp : p.length ≤ 8 * width) :
    Layout.addsAt p (entries.map Entry.holding) = Entry.sumAt entries (Prefix.ofPath width p) := by
  rw [Layout.addsAt, List.filter_map, List.map_map, Entry.sumAt]
  refine congrArg (fun l : List (Entry (Count range) width) => (l.map fun e => e.value.val).sum)
    (List.filter_congr fun e he => ?_)
  rw [Function.comp_apply, Bool.eq_iff_iff, beq_iff_eq, beq_iff_eq, masked_eq_iff (hdepth e he) hp]
  rfl

theorem Stores.holds_normalForm {s : SlotId} (h : t.Stores L)
    (hdepth : ∀ e ∈ entries, e.depth ≤ 8 * width)
    (hadds : Layout.AddsAll (entries.map Entry.holding) (.fresh s) L) :
    ((L.holdings.map (Entry.ofHolding width)).map fun e => (e.toPrefix, e.value.val)) =
      Entry.normalForm entries := by
  -- Both lists are in order, so it is enough that they have the same members.
  refine Entry.eq_normalForm (List.pairwise_map.mpr h.ordered_entries) fun a => ?_
  rw [Entry.mem_normalForm_iff, List.map_map, List.mem_map]
  constructor
  · rintro ⟨⟨p, v⟩, hheld, rfl⟩
    have hp : p.length ≤ 8 * width := h.length_holding_le _ hheld
    obtain ⟨hsum, hzero⟩ := hadds.mem_holdings_iff.mp hheld
    -- Something was added at the path, so an entry has it.
    have hmem : p ∈ (entries.map Entry.holding).map Prod.fst := by
      by_contra hnone
      exact hzero (Layout.addsAt_of_not_mem hnone)
    rw [List.map_map] at hmem
    obtain ⟨e, he, hpath⟩ := List.mem_map.mp hmem
    rw [addsAt_holding hdepth hp] at hsum hzero
    refine ⟨⟨e, he, (masked_eq_iff (hdepth e he) hp).mpr hpath⟩, hsum, ?_⟩
    show v.val ≠ 0
    rw [hsum]
    exact hzero
  · rintro ⟨⟨e, he, hmasked⟩, hsum, hzero⟩
    have hp : e.path.length ≤ 8 * width := Prefix.length_path_le (hdepth e he)
    have hmem : e.path ∈ (entries.map Entry.holding).map Prod.fst := by
      rw [List.map_map]
      exact List.mem_map.mpr ⟨e, he, rfl⟩
    obtain ⟨v, -, hv⟩ := hadds.exists_valueAt hmem
    have hprefix : Prefix.ofPath width e.path = a.1 := by
      rw [← Prefix.masked_eq (hdepth e he), hmasked]
    have hval : v.val = a.2 := by rw [hv, addsAt_holding hdepth hp, hprefix, hsum]
    refine ⟨(e.path, v), hadds.mem_holdings_iff.mpr ⟨hv, ?_⟩, Prod.ext hprefix hval⟩
    rw [← hv, hval]
    exact hzero

theorem Stores.collects (h : t.Stores L) (hdepth : ∀ e ∈ entries, e.depth ≤ 8 * width)
    (hadds : Layout.AddsAll (entries.map Entry.holding) (.fresh Arena.root) L)
    (hpruned : t.pruned = 0) : t.Collects entries := by
  have hbalanced := h.balanced
  have hnodes : t.nodeCount = (Entry.bitPrefixes entries).card := by
    have hpaths : ((entries.map Entry.holding).flatMap fun a => a.1.inits) =
        entries.flatMap fun e => e.masked.path.inits := by
      rw [List.flatMap_map]
      refine List.flatMap_congr fun e he => ?_
      rw [Prefix.path_masked (hdepth e he)]
      rfl
    rw [h.nodeCount_eq_card hadds, hpaths]
    rfl
  exact ⟨⟨_, h.histogram_holdings, h.holds_normalForm hdepth hadds⟩, hnodes, by omega, hpruned⟩

/-- Trees of the same entries in any order show the same. -/
theorem Collects.congr (h : t.Collects entries) (hu : u.Collects others)
    (hperm : entries.Perm others) : u.histogram = t.histogram ∧ u.nodeCount = t.nodeCount := by
  obtain ⟨held, hheld, hform⟩ := h.histogram
  obtain ⟨more, hmore, hform'⟩ := hu.histogram
  have hinjective : Function.Injective fun e : Entry (Count range) width =>
      (e.toPrefix, e.value.val) := by
    intro e f hsame
    have hprefix : e.toPrefix = f.toPrefix := congrArg Prod.fst hsame
    have hvalue : e.value = f.value := Count.ext (congrArg Prod.snd hsame)
    cases e
    cases f
    simp_all
  have hentries : more = held := by
    refine List.map_injective_iff.mpr hinjective ?_
    rw [hform, hform', Entry.normalForm_perm hperm]
  refine ⟨by rw [hheld, hmore, hentries], ?_⟩
  rw [h.nodeCount, hu.nodeCount, Entry.bitPrefixes_perm hperm]

/-- Entries that are not too deep and whose absolute values fit make a tree that holds them, and that
is made again of what it holds. -/
theorem exists_ofEntries_collects (hvalid : config.Valid)
    (hdepth : ∀ e ∈ entries, e.depth ≤ 8 * width)
    (hfits : (entries.map fun e => e.value.val.natAbs).sum ≤ range.reach) :
    ∃ t, ofEntries config entries = .ok t ∧ t.Collects entries ∧
      ∃ held r, t.histogram = .ok held ∧ ofEntries config held = .ok r ∧
        r.histogram = .ok held := by
  obtain ⟨t, ht, L, hL, rfl, hadds⟩ := exists_addEntries config hdepth hfits
  obtain ⟨r, hr⟩ := hL.exists_ofEntries hvalid
  refine ⟨t, (ofEntries_of_valid hvalid).trans ht, ?_, _, r, hL.histogram_holdings, hr,
    (hL.rebuilds hr).histogram⟩
  exact hL.collects hdepth hadds (addEntries_pruned ht)

/-- A tree is made of any entries whose absolute values together fit into the range, unless the
settings are not valid or, after that, an entry is too deep. -/
theorem ofEntries_normalises (hmachine : range.IsMachine) (config : Config)
    (entries : List (Entry (Count range) width))
    (hfits : (((entries.map fun e => e.value.val.natAbs).sum : Nat) : Int) ≤ range.hi) :
    (¬config.Valid → ofEntries config entries = .error (.refused .percentOutOfRange)) ∧
    (config.Valid → ∀ e, entries.find? (fun e => 8 * width < e.depth) = some e →
      ofEntries config entries = .error (.refused (.depthOutOfRange e.depth (8 * width)))) ∧
    (config.Valid → entries.find? (fun e => 8 * width < e.depth) = none →
      ∃ t, ofEntries config entries = .ok t ∧ t.Collects entries ∧
        (∀ others, entries.Perm others → ∃ u, ofEntries config others = .ok u ∧
          u.histogram = t.histogram ∧ u.nodeCount = t.nodeCount) ∧
        ∃ held r, t.histogram = .ok held ∧ ofEntries config held = .ok r ∧
          r.histogram = .ok held) := by
  have hreach := hmachine.reach_eq
  have hroom : (entries.map fun e => e.value.val.natAbs).sum ≤ range.reach := by omega
  refine ⟨ofEntries_of_not_valid, fun hvalid e he => ?_, fun hvalid hnone => ?_⟩
  · obtain ⟨hdeep, before, after, rfl, hbefore⟩ := List.find?_eq_some_iff_append.mp he
    rw [List.map_append, List.sum_append] at hroom
    refine ofEntries_of_deep hvalid (fun e' he' => ?_) (by simpa using hdeep) ?_
    · simpa using hbefore e' he'
    · exact Nat.le_trans (Nat.le_add_right _ _) hroom
  · have hdepth : ∀ e ∈ entries, e.depth ≤ 8 * width := by
      simpa using List.find?_eq_none.mp hnone
    obtain ⟨t, ht, hcollects, hagain⟩ := exists_ofEntries_collects hvalid hdepth hroom
    refine ⟨t, ht, hcollects, fun others hperm => ?_, hagain⟩
    have hsame := (hperm.map fun e => e.value.val.natAbs).sum_nat
    obtain ⟨u, hu, hothers, -⟩ := exists_ofEntries_collects hvalid
      (fun e he => hdepth e (hperm.mem_iff.mpr he)) (by rw [← hsame]; exact hroom)
    exact ⟨u, hu, hcollects.congr hothers hperm⟩

/-- Entries of four bits that cancel although one has a key with later bits set, between repeated
entries of one bit and one of two. -/
theorem ofEntries_normalises_of_cancel : ∃ entries : List (Entry (Count (.signed 8)) 1),
    entries.map (fun e => (e.bytes.toList, e.depth, e.value.val)) =
      [([255], 4, 5), ([128], 1, 3), ([240], 4, -5), ([192], 2, 2), ([129], 1, -1)] ∧
    Entry.normalForm entries = [(⟨⟨#[128], rfl⟩, 1⟩, 2), (⟨⟨#[192], rfl⟩, 2⟩, 2)] ∧
    ∃ t, ofEntries .standard entries = .ok t ∧ t.nodeCount = 4 ∧ t.Collects entries := by
  have hmade : ∃ entries : List (Entry (Count (.signed 8)) 1),
      entries.map (fun e => (e.bytes.toList, e.depth, e.value.val)) =
        [([255], 4, 5), ([128], 1, 3), ([240], 4, -5), ([192], 2, 2), ([129], 1, -1)] ∧
      Entry.normalForm entries = [(⟨⟨#[128], rfl⟩, 1⟩, 2), (⟨⟨#[192], rfl⟩, 2⟩, 2)] ∧
      (((entries.map fun e => e.value.val.natAbs).sum : Nat) : Int) ≤ (IntRange.signed 8).hi ∧
      entries.find? (fun e => 8 * 1 < e.depth) = none ∧
      ∃ t, ofEntries .standard entries = .ok t ∧ t.nodeCount = 4 := by
    refine ⟨[⟨⟨⟨#[255], rfl⟩, 4⟩, ⟨5, by decide, by decide⟩⟩,
      ⟨⟨⟨#[128], rfl⟩, 1⟩, ⟨3, by decide, by decide⟩⟩,
      ⟨⟨⟨#[240], rfl⟩, 4⟩, ⟨-5, by decide, by decide⟩⟩,
      ⟨⟨⟨#[192], rfl⟩, 2⟩, ⟨2, by decide, by decide⟩⟩,
      ⟨⟨⟨#[129], rfl⟩, 1⟩, ⟨-1, by decide, by decide⟩⟩],
      rfl, by decide +kernel, by decide, by decide, ?_⟩
    exact ⟨_, rfl, rfl⟩
  obtain ⟨entries, hentries, hform, hfits, hnone, t, ht, hcount⟩ := hmade
  obtain ⟨u, hu, hcollects, -⟩ :=
    (ofEntries_normalises ⟨8, .inr rfl⟩ .standard entries hfits).2.2 (by decide) hnone
  obtain rfl := Except.ok.inj (ht.symm.trans hu)
  exact ⟨entries, hentries, hform, t, ht, hcount, hcollects⟩

end PrefixTally.Tree
