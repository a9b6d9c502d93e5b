import PrefixTally.Benchmark.Counter
import PrefixTally.Proofs.Pair.Joint
import PrefixTally.Proofs.Tree.Counting

/-! The counters of a benchmark.  A ledger has as many entries as keys differ, and so has a tree
whose keys have no sum of zero, as long as it has never folded a node.  For a tree of pairs the key
and the same key backwards make one joint key, and different keys make different ones.  So all kinds
of counters report the same number of entries. -/

namespace PrefixTally

namespace Benchmark

variable {adds : List (Bytes × Amount)}

/-! ### The ledger -/

namespace Ledger

/-- The ledger with all values of a list added for their keys, in order. -/
def addAll (ledger : Ledger) (adds : List (Bytes × Amount)) : Checked Ledger :=
  adds.foldlM (fun ledger a => Ledger.add ledger a.1 a.2) ledger

/-- The ledger has the keys of the adds, and no tally outweighs them all. -/
structure Counts (ledger : Ledger) (adds : List (Bytes × Amount)) : Prop where
  size : ledger.size = (adds.map Prod.fst).toFinset.card
  mem_iff : ∀ key, key ∈ ledger ↔ key ∈ adds.map Prod.fst
  weight_le : ∀ key, (ledger.getD key Tally.zero).val.natAbs ≤
    (adds.map fun a => a.2.val.natAbs).sum

theorem counts_empty : Counts Std.HashMap.emptyWithCapacity [] where
  size := Std.HashMap.size_emptyWithCapacity
  mem_iff key := by simp
  weight_le key := by simp [Tally.zero, Count.zero]

theorem Counts.insert {ledger : Ledger} {key : Bytes} {value sum : Amount} (h : Counts ledger adds)
    (hsum : sum.val.natAbs ≤
      (ledger.getD key Tally.zero).val.natAbs + value.val.natAbs) :
    Counts (ledger.insert key sum) (adds ++ [(key, value)]) where
  size := by
    have hnew : ((adds ++ [(key, value)]).map Prod.fst).toFinset =
        Insert.insert key (adds.map Prod.fst).toFinset := by
      ext other
      simp
    rw [Std.HashMap.size_insert, hnew, h.size]
    by_cases hmem : key ∈ ledger
    · have hold := List.mem_toFinset.mpr ((h.mem_iff key).mp hmem)
      rw [if_pos hmem, Finset.card_insert_of_mem hold]
    · have hold := mt List.mem_toFinset.mp (mt (h.mem_iff key).mpr hmem)
      rw [if_neg hmem, Finset.card_insert_of_notMem hold]
  mem_iff other := by
    rw [Std.HashMap.mem_insert, h.mem_iff, beq_iff_eq, List.map_append, List.mem_append, or_comm]
    simp [eq_comm]
  weight_le other := by
    have hkey := h.weight_le key
    have hother := h.weight_le other
    rw [Std.HashMap.getD_insert, List.map_append, List.sum_append]
    simp only [List.map_cons, List.map_nil, List.sum_cons, List.sum_nil]
    split <;> omega

theorem Counts.add {ledger : Ledger} (h : Counts ledger adds) (key : Bytes) (value : Amount) :
    Ends ((IntRange.unsigned 64).reach <
        (adds.map fun a => a.2.val.natAbs).sum + value.val.natAbs)
      (fun next => Counts next (adds ++ [(key, value)])) (Ledger.add ledger key value) := by
  have hkey := h.weight_le key
  have hsums := Weighed.add_ends (ledger.getD key Tally.zero) value
  refine (hsums.imp (fun hlt => Nat.lt_of_lt_of_le hlt (Nat.add_le_add_right hkey _))
    fun _ _ hsum => hsum).bind fun sum _ hsum => .value (h.insert hsum)

theorem Counts.addAll {ledger : Ledger} {before : List (Bytes × Amount)}
    (h : Counts ledger before) (adds : List (Bytes × Amount)) :
    Ends ((IntRange.unsigned 64).reach < ((before ++ adds).map fun a => a.2.val.natAbs).sum)
      (fun next => Counts next (before ++ adds)) (Ledger.addAll ledger adds) := by
  induction adds generalizing ledger before with
  | nil => exact .value (by rwa [List.append_nil])
  | cons a rest ih =>
    rw [Ledger.addAll, List.foldlM_cons]
    refine ((h.add a.1 a.2).imp ?_ fun _ _ hnext => hnext).bind fun next _ hnext => ?_
    · rw [List.map_append, List.sum_append, List.map_cons, List.sum_cons]
      omega
    · have hrest := ih hnext
      rwa [List.append_assoc] at hrest

end Ledger

/-! ### Trees -/

/-- As many images of keys differ as keys do, where different keys have different images. -/
theorem card_images {f : Bytes → Path} (h : ∀ a ∈ adds, ∀ b ∈ adds, f a.1 = f b.1 → a.1 = b.1) :
    (adds.map fun a => f a.1).toFinset.card = (adds.map Prod.fst).toFinset.card := by
  have himage : (adds.map fun a => f a.1).toFinset = (adds.map Prod.fst).toFinset.image f := by
    ext p
    simp
  rw [himage, Finset.card_image_of_injOn]
  intro key hkey other hother hsame
  rw [Finset.mem_coe, List.mem_toFinset, List.mem_map] at hkey hother
  obtain ⟨a, ha, rfl⟩ := hkey
  obtain ⟨b, hb, rfl⟩ := hother
  exact h a ha b hb hsame

namespace Index

/-- No node of the counter was ever folded into its parent. -/
def Unpruned : Index → Prop
  | exact _ => True
  | single tree => tree.pruned = 0
  | paired tree => tree.pruned = 0

instance : DecidablePred Unpruned
  | exact _ => inferInstanceAs (Decidable True)
  | single tree => inferInstanceAs (Decidable (tree.pruned = 0))
  | paired tree => inferInstanceAs (Decidable (tree.pruned = 0))

theorem addAll_exact (ledger : Ledger) (adds : List (Bytes × Amount)) :
    (exact ledger).addAll adds = Checked.orStop ((Ledger.addAll ledger adds).map exact) := by
  induction adds generalizing ledger with
  | nil => rfl
  | cons a rest ih =>
    rw [addAll, Ledger.addAll, List.foldlM_cons, List.foldlM_cons, add]
    cases Ledger.add ledger a.1 a.2 with
    | error fault => rfl
    | ok next => exact ih next

/-- A counter `make tree` adds `joined key` to its tree for each key of the adds, and different keys
stay different in it. -/
structure Wraps {width : Nat} (make : Tree Amount width → Index) (joined : Bytes → Bytes)
    (adds : List (Bytes × Amount)) : Prop where
  add_eq : ∀ tree, ∀ a ∈ adds, (make tree).add a.1 a.2 =
    Checked.orStop ((tree.add (joined a.1) a.2).map fun step => make step.tree)
  unpruned_iff : ∀ tree, (make tree).Unpruned ↔ tree.pruned = 0
  entries_eq : ∀ tree L, tree.Stores L → (make tree).entries = .ok L.holdings.length
  injective : ∀ a ∈ adds, ∀ b ∈ adds,
    (joined a.1).take width = (joined b.1).take width → a.1 = b.1

namespace Wraps

variable {width : Nat} {make : Tree Amount width → Index} {joined : Bytes → Bytes}

theorem tail {a : Bytes × Amount} (h : Wraps make joined (a :: adds)) : Wraps make joined adds where
  add_eq tree b hb := h.add_eq tree b (List.mem_cons_of_mem _ hb)
  unpruned_iff := h.unpruned_iff
  entries_eq := h.entries_eq
  injective b hb c hc := h.injective b (List.mem_cons_of_mem _ hb) c (List.mem_cons_of_mem _ hc)

theorem addAll_eq (h : Wraps make joined adds) (tree : Tree Amount width) :
    (make tree).addAll adds = Checked.orStop
      ((tree.addAll (adds.map fun a => (joined a.1, a.2))).map fun step => make step.tree) := by
  induction adds generalizing tree with
  | nil => rfl
  | cons a rest ih =>
    rw [addAll, List.foldlM_cons, h.add_eq tree a List.mem_cons_self, List.map_cons, Tree.addAll]
    cases tree.add (joined a.1) a.2 with
    | error fault => rfl
    | ok step =>
      refine (ih h.tail step.tree).trans ?_
      show _ = Checked.orStop (Except.map _ (step.tree.addAll _ >>= _))
      cases step.tree.addAll (rest.map fun a => (joined a.1, a.2)) <;> rfl

theorem addAll_entries (h : Wraps make joined adds) (config : Config)
    (hpos : ∀ a ∈ adds, 0 < a.2.val) : ∃ done : Checked Index,
      (make (Tree.empty config)).addAll adds = done.orStop ∧
      Ends ((IntRange.unsigned 64).reach < (adds.map fun a => a.2.val.natAbs).sum)
        (fun index => index.Unpruned → index.entries = .ok (adds.map Prod.fst).toFinset.card)
        done := by
  refine ⟨_, h.addAll_eq _, ((Tree.addAll_unpruned config _).imp (fun hlt => ?_)
    fun _ _ hstep => hstep).map fun step _ hstep hnone => ?_⟩
  · rwa [List.map_map] at hlt
  obtain ⟨L, hL, hadds⟩ := hstep ((h.unpruned_iff _).mp hnone)
  have hlen := hadds.length_holdings fun a ha => by
    obtain ⟨b, hb, rfl⟩ := List.mem_map.mp ha
    obtain ⟨c, hc, rfl⟩ := List.mem_map.mp hb
    exact hpos c hc
  rw [List.map_map, List.map_map] at hlen
  rw [h.entries_eq _ L hL, hlen]
  -- A tally of a positive sum is held for each path of a key, and no two keys have one path.
  refine congrArg Except.ok (card_images (f := fun key => Bits.unpack ((joined key).take width))
    fun a ha b hb hsame => ?_)
  exact h.injective a ha b hb (Bits.unpack_injective hsame)

end Wraps

theorem wraps_single (h : ∀ a ∈ adds, a.1.length = 4) : Wraps single id adds where
  add_eq tree a _ := by
    rw [add, id]
    cases tree.add a.1 a.2 <;> rfl
  unpruned_iff tree := Iff.rfl
  entries_eq tree L hL := by
    rw [entries, hL.histogram_holdings, ok_bind, List.length_map]
    rfl
  injective a ha b hb hsame := by
    rwa [id, id, List.take_of_length_le (Nat.le_of_eq (h a ha)),
      List.take_of_length_le (Nat.le_of_eq (h b hb))] at hsame

theorem refusal_reverse {key : Bytes} (h : key.length ≤ Pair.halfBytes) :
    Pair.refusal key key.reverse = none :=
  Pair.refusal_eq_none_iff.mpr ⟨List.length_reverse.symm, h⟩

/-- Keys that make the same joint key with themselves backwards are the same. -/
theorem eq_of_joint {key other : Bytes} (hkey : key.length ≤ Pair.halfBytes)
    (hother : other.length ≤ Pair.halfBytes)
    (h : (Pair.joint key key.reverse).take Pair.keyBytes =
      (Pair.joint other other.reverse).take Pair.keyBytes) : key = other := by
  have hlen : ∀ k : Bytes, (Bits.unpack k).length = (Bits.unpack k.reverse).length := fun k => by
    rw [Bits.length_unpack, Bits.length_unpack, List.length_reverse]
  have hwoven := congrArg Bits.unpack h
  rw [Pair.unpack_take_joint (refusal_reverse hkey),
    Pair.unpack_take_joint (refusal_reverse hother)] at hwoven
  refine Bits.unpack_injective ?_
  rw [← Bits.evens_weave (hlen key), hwoven, Bits.evens_weave (hlen other)]

theorem wraps_paired (h : ∀ a ∈ adds, a.1.length ≤ Pair.halfBytes) :
    Wraps paired (fun key => Pair.joint key key.reverse) adds where
  add_eq tree a ha := by
    rw [add, PairTree.addPair_eq, refusal_reverse (h a ha)]
    dsimp only
    cases Tree.add tree (Pair.joint a.1 a.1.reverse) a.2 <;> rfl
  unpruned_iff tree := Iff.rfl
  entries_eq tree L hL := by
    rw [entries, hL.pairHistogram, ok_bind, List.length_map]
    rfl
  injective a ha b hb hsame := eq_of_joint (h a ha) (h b hb) hsame

/-- Every kind of counter that never folded a node has as many entries as keys differ. -/
theorem addAll_entries (maxNodes : Nat) (h : ∀ a ∈ adds, a.1.length = 4 ∧ 0 < a.2.val)
    (kind : IndexKind) : ∃ done : Checked Index,
      (ofKind kind maxNodes).addAll adds = done.orStop ∧
      Ends ((IntRange.unsigned 64).reach < (adds.map fun a => a.2.val.natAbs).sum)
        (fun index => index.Unpruned → index.entries = .ok (adds.map Prod.fst).toFinset.card)
        done := by
  have hpos : ∀ a ∈ adds, 0 < a.2.val := fun a ha => (h a ha).2
  have hsingle : Wraps single id adds := wraps_single fun a ha => (h a ha).1
  cases kind with
  | exactMap =>
    refine ⟨_, addAll_exact _ adds, (Ledger.counts_empty.addAll adds).map ?_⟩
    intro ledger _ hcounts _
    rw [entries, hcounts.size]
    rfl
  | tree => exact hsingle.addAll_entries _ hpos
  | treeWithoutCache => exact hsingle.addAll_entries _ hpos
  | pairTree =>
    refine (wraps_paired fun a ha => ?_).addAll_entries _ hpos
    rw [(h a ha).1, Pair.halfBytes]
    decide

/-- A load overflows only if there are more keys than tallies have room for. -/
theorem load_entries (maxNodes : Nat) {keys : List Bytes} (h : ∀ key ∈ keys, key.length = 4)
    (kind : IndexKind) : ∃ done : Checked Index,
      (ofKind kind maxNodes).load keys = done.orStop ∧
      Ends ((IntRange.unsigned 64).reach < keys.length)
        (fun index => index.Unpruned → index.entries = .ok keys.toFinset.card) done := by
  have hadds : ∀ a ∈ keys.map fun key => (key, (⟨1, by decide, by decide⟩ : Amount)),
      a.1.length = 4 ∧ 0 < a.2.val := by
    intro a ha
    obtain ⟨key, hkey, rfl⟩ := List.mem_map.mp ha
    exact ⟨h key hkey, Int.one_pos⟩
  obtain ⟨done, hdone, hends⟩ := addAll_entries maxNodes hadds kind
  refine ⟨done, hdone, ?_⟩
  simpa [Function.comp_def] using hends

end Index

end Benchmark

/-! ### Counters without pruning -/

/-- A tree that never folds a node is an exact counter, whatever the order of the adds, and all
kinds of counters that never fold a node have as many entries as keys differ. -/
theorem unpruned_counters_exact :
    (∀ (range : IntRange) (width : Nat) (config : Config) (adds : List (Bytes × Count range)),
      Ends (range.reach < (adds.map fun a => a.2.val.natAbs).sum)
        (fun step => step.tree.pruned = 0 → step.tree.Counted adds)
        ((Tree.empty config : Tree (Count range) width).addAll adds)) ∧
    (∀ (range : IntRange) (width : Nat) (config other : Config)
        (adds others : List (Bytes × Count range)) (step more : Step (Count range) width),
      adds.Perm others →
      (Tree.empty config).addAll adds = .ok step → step.tree.pruned = 0 →
      (Tree.empty other).addAll others = .ok more → more.tree.pruned = 0 →
      step.tree.histogram = more.tree.histogram ∧ step.tree.nodeCount = more.tree.nodeCount) ∧
    ∀ (maxNodes : Nat) (adds : List (Bytes × Benchmark.Amount)),
      (∀ a ∈ adds, a.1.length = 4 ∧ 0 < a.2.val) →
      ∀ kind : Benchmark.IndexKind, ∃ done : Checked Benchmark.Index,
        (Benchmark.Index.ofKind kind maxNodes).addAll adds = done.orStop ∧
        Ends ((IntRange.unsigned 64).reach < (adds.map fun a => a.2.val.natAbs).sum)
          (fun index => index.Unpruned →
            index.entries = .ok (adds.map Prod.fst).toFinset.card) done := by
  refine ⟨fun _ _ config adds => Tree.addAll_counted config adds, ?_,
    fun maxNodes adds h kind => Benchmark.Index.addAll_entries maxNodes h kind⟩
  intro range width config other adds others step more hperm hstep hnone hmore hnone'
  have hcounted := (Tree.addAll_counted config adds).of_ok hstep hnone
  have hothers := (Tree.addAll_counted other others).of_ok hmore hnone'
  exact hcounted.congr hothers hperm

/-- Keys of several lengths, of which some have one sum of zero, in two orders, and a tree of pairs
with a key and the same key backwards. -/
theorem unpruned_counters_exact_of_cancel :
    (∃ (adds : List (Bytes × Count (.signed 8))) (step more : Step (Count (.signed 8)) 1),
      adds = [([0], ⟨5, by decide, by decide⟩), ([128], ⟨3, by decide, by decide⟩),
        ([], ⟨2, by decide, by decide⟩), ([128, 7], ⟨-3, by decide, by decide⟩)] ∧
      (Tree.empty .standard).addAll adds = .ok step ∧ step.tree.pruned = 0 ∧
      (Tree.empty .standard).addAll adds.reverse = .ok more ∧ more.tree.pruned = 0 ∧
      step.tree.nodeCount = 16 ∧ step.tree.Counted adds ∧
      step.tree.histogram = more.tree.histogram) ∧
    ∃ (adds : List (Bytes × Benchmark.Amount)) (index : Benchmark.Index),
      adds = [([1, 2, 3, 4], ⟨1, by decide, by decide⟩),
        ([4, 3, 2, 1], ⟨2, by decide, by decide⟩)] ∧
      (∀ a ∈ adds, a.1.length = 4 ∧ 0 < a.2.val) ∧
      (Benchmark.Index.ofKind .pairTree 200).addAll adds = .ok index ∧ index.Unpruned ∧
      index.entries = .ok 2 := by
  obtain ⟨hcounts, hperm, hkinds⟩ := unpruned_counters_exact
  refine ⟨?_, ?_⟩
  · have hrun : ∃ step more : Step (Count (.signed 8)) 1,
        (Tree.empty .standard).addAll [([0], ⟨5, by decide, by decide⟩),
          ([128], ⟨3, by decide, by decide⟩), ([], ⟨2, by decide, by decide⟩),
          ([128, 7], ⟨-3, by decide, by decide⟩)] = .ok step ∧ step.tree.pruned = 0 ∧
        (Tree.empty .standard).addAll [([128, 7], ⟨-3, by decide, by decide⟩),
          ([], ⟨2, by decide, by decide⟩), ([128], ⟨3, by decide, by decide⟩),
          ([0], ⟨5, by decide, by decide⟩)] = .ok more ∧ more.tree.pruned = 0 ∧
        step.tree.nodeCount = 16 :=
      ⟨_, _, rfl, rfl, rfl, rfl, rfl⟩
    obtain ⟨step, more, hstep, hnone, hmore, hnone', hcount⟩ := hrun
    have hsame := hperm _ _ .standard .standard _ _ step more (List.reverse_perm _).symm hstep hnone
      hmore hnone'
    exact ⟨_, step, more, rfl, hstep, hnone, hmore, hnone', hcount,
      (hcounts _ _ .standard _).of_ok hstep hnone, hsame.1⟩
  · have hrun : ((Benchmark.Index.ofKind .pairTree 200).addAll
        [([1, 2, 3, 4], ⟨1, by decide, by decide⟩),
          ([4, 3, 2, 1], ⟨2, by decide, by decide⟩)]).toOption.any
        (fun index => decide index.Unpruned) = true := by decide +kernel
    have hadds : ∀ a ∈ ([([1, 2, 3, 4], ⟨1, by decide, by decide⟩),
        ([4, 3, 2, 1], ⟨2, by decide, by decide⟩)] : List (Bytes × Benchmark.Amount)),
        a.1.length = 4 ∧ 0 < a.2.val := by decide
    obtain ⟨done, hdone, hends⟩ := hkinds 200 _ hadds .pairTree
    obtain ⟨index, rfl, hindex⟩ := hends.exists_ok (by decide)
    rw [hdone] at hrun
    have hunpruned : index.Unpruned := of_decide_eq_true hrun
    exact ⟨_, index, rfl, hadds, hdone, hunpruned, hindex hunpruned⟩

end PrefixTally
